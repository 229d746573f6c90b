import TreeLowering.Tree.Equality
import TreeLowering.Tree.Render

namespace TreeLowering

-- A pattern that holds something which cannot be compared against.
inductive MatchError where
  | unsupportedPattern (typeName : String)
  deriving DecidableEq, Repr

def MatchError.message : MatchError → String
  | .unsupportedPattern typeName =>
    "cannot match against a " ++ typeName ++ " value: expected a primitive or a nested matcher"

-- A predicate on values: equality with a primitive, a node of a kind whose named attributes satisfy
-- matchers of their own, or any test.
inductive Matcher where
  | equals (expected : Value)
  | kind (kind : String) (attrs : List (String × Matcher))
  | predicate (holds : Value → Bool)

namespace Matcher

def ofKind (k : String) : Matcher := kind k []

-- Adds a demand on an attribute to the matcher of a kind. Other matchers stay as they are.
def attr (m : Matcher) (name : String) (demand : Matcher) : Matcher :=
  match m with
  | kind k attrs => kind k (attrs ++ [(name, demand)])
  | m => m

def kind? : Matcher → Option String
  | kind k _ => some k
  | _ => none

-- Equality with a primitive value. Integers and floating-point numbers compare by what they denote.
def compare (expected actual : Value) : Except MatchError Bool :=
  match expected, actual with
  | .node _, _ | .list _, _ | .tuple _, _ => .error (.unsupportedPattern expected.typeName)
  | .int n, .float x | .float x, .int n => .ok (x.equalsInt n)
  | _, _ => .ok (expected.equals actual)

mutual
def test : Matcher → Value → Except MatchError Bool
  | equals expected, v => compare expected v
  | kind k attrs, v =>
    match v with
    | .node n => if n.isA k then testAttrs attrs n else .ok false
    | _ => .ok false
  | predicate holds, v => .ok (holds v)
termination_by structural m => m

-- The attributes one after the other, up to the first that fails. An explicit "no value" is tested as None;
-- what is unset or undeclared fails.
def testAttrs : List (String × Matcher) → Node → Except MatchError Bool
  | [], _ => .ok true
  | (name, m) :: rest, n => do
    let ok ← match n.slot? name with
      | none | some .unset => pure false
      | some .explicitNone => m.test .none
      | some (.value v) => m.test v
    if ok then testAttrs rest n else return false
termination_by structural attrs => attrs
end

def testNode (m : Matcher) (n : Node) : Except MatchError Bool := m.test (.node n)

mutual
def render : Matcher → String
  | equals expected => expected.render
  | kind k attrs => k ++ "(" ++ renderAttrs true attrs ++ ")"
  | predicate _ => "<predicate>"
termination_by structural m => m

def renderAttrs (first : Bool) : List (String × Matcher) → String
  | [] => ""
  | (name, m) :: rest =>
    (if first then "" else ", ") ++ name ++ "=" ++ m.render ++ renderAttrs false rest
termination_by structural attrs => attrs
end

end Matcher

end TreeLowering
