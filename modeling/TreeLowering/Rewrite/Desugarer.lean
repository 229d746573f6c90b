import TreeLowering.Rewrite.Rules
import TreeLowering.Tree.Finalize
import TreeLowering.Keyed

namespace TreeLowering

structure RuleTable where
  byKind : List (String × List Nat)
  unkeyed : List Nat
  deriving Repr

namespace RuleTable

def empty : RuleTable := ⟨[], []⟩

def under (t : RuleTable) (kind : String) : List Nat := (Keyed.lookup? kind t.byKind).getD []

def add (t : RuleTable) (kind : Option String) (index : Nat) : RuleTable :=
  match kind with
  | some kind => ⟨Keyed.insert kind (t.under kind ++ [index]) t.byKind, t.unkeyed⟩
  | none => ⟨t.byKind, t.unkeyed ++ [index]⟩

-- The positions that may apply to a kind, in order: the unkeyed ones and those along its chain.
def candidates (t : RuleTable) (schema : Schema) : List Nat :=
  (t.unkeyed ++ schema.chain.flatMap fun s => t.under s.kind).mergeSort

end RuleTable

structure Desugarer where
  registry : Registry
  rules : List Rule
  table : RuleTable

structure PassState where
  names : NameSupply
  applied : Nat
  deriving DecidableEq, Repr

namespace Desugarer

def empty (r : Registry) : Desugarer := ⟨r, [], .empty⟩

def push (d : Desugarer) (rule : Rule) : Desugarer :=
  ⟨d.registry, d.rules ++ [rule], d.table.add rule.matcher.kind? d.rules.length⟩

def extend (d : Desugarer) (rules : List Rule) : Desugarer := rules.foldl push d

def standard (r : Registry) : Desugarer := (empty r).extend Rule.standard

def ofNames (r : Registry) (names : List String) : Except RewriteError Desugarer :=
  names.foldlM (fun d name =>
    match Rule.ofName? name with
    | some rule => .ok (d.push rule)
    | none => .error (.unknownRule name)) (empty r)

def ruleNames (d : Desugarer) : List String := d.rules.map Rule.name

def candidates (d : Desugarer) (n : Node) : List Rule :=
  (d.table.candidates n.schema).filterMap (d.rules[·]?)

def firstMatch? (n : Node) : List Rule → Except MatchError (Option Rule)
  | [] => .ok none
  | rule :: rest => do
    if ← rule.matcher.testNode n then return some rule else firstMatch? n rest

def findMatch? (d : Desugarer) (n : Node) : Except MatchError (Option Rule) :=
  firstMatch? n (d.candidates n)

def applyMatch (d : Desugarer) (n : Node) : Walk PassState RewriteError Replacement := fun s =>
  match d.findMatch? n with
  | .error e => (.error (.pattern e), s)
  | .ok none => (.ok (.ofNode n), s)
  | .ok (some rule) =>
    let (outcome, names) := (rule.rewrite d.registry n).run s.names
    (outcome, ⟨names, s.applied + 1⟩)

-- One pass over a tree: at each node the children first, then the rule that matches what they leave. What
-- the rule puts in place is not visited again.
def pass (d : Desugarer) (root : Node) : Walk PassState RewriteError Replacement :=
  root.transform fun _ => return .descend d.applyMatch

def describe : Replacement → String
  | .value v => "a " ++ v.typeName ++ " value"
  | .splice vs => "a sequence of " ++ toString vs.length ++ " values"
  | .explicitNone => "an explicit None"
  | .delete => "nothing"

-- Runs the rules over a tree. The root may be rewritten too, but only into a single node.
def rewrite (d : Desugarer) (root : Node) : Rewriting Node := fun names =>
  let (outcome, s) := (d.pass root).run ⟨names, 0⟩
  match outcome with
  | .error e => (.error e, s.names)
  | .ok (.value (.node n)) => (.ok n, s.names)
  | .ok r => (.error (.rootReplaced root.kind (describe r)), s.names)

-- A node at which a check of the whole tree fails: a rule matches it, or a matcher is in error.
def residue? (d : Desugarer) (n : Node) : Option RewriteError :=
  match d.findMatch? n with
  | .error e => some (.pattern e)
  | .ok none => none
  | .ok (some rule) => some (.residual rule.name n.render)

def verify (d : Desugarer) (root : Node) : Except RewriteError Unit :=
  let found := root.survey (fun _ n found =>
    match found with
    | some e => (some e, false)
    | none =>
      let e := d.residue? n
      (e, e.isNone)) 0 none
  match found with
  | some e => .error e
  | none => .ok ()

def complete (d : Desugarer) (root : Node) : Rewriting Node := do
  let n ← d.rewrite root
  let (n, outcome) := n.finalize
  Walk.ofAssign outcome
  return n

def run (d : Desugarer) (root : Node) : Rewriting Node := do
  let n ← d.complete root
  Rewriting.ofExcept (d.verify n)
  return n

end Desugarer

end TreeLowering
