import TreeLowering.Tree.Walk
import TreeLowering.Rewrite.Names
import TreeLowering.Rewrite.Matcher

namespace TreeLowering

inductive RewriteError where
  | node (e : NodeError)
  | schema (e : SchemaError)
  | pattern (e : MatchError)
  | shape (rule expected : String)
  | rootReplaced (kind replacement : String)
  | residual (rule text : String)
  | unknownRule (name : String)
  deriving DecidableEq, Repr

def RewriteError.message : RewriteError → String
  | .node e => e.message
  | .schema e => e.message
  | .pattern e => e.message
  | .shape rule expected => "rule '" ++ rule ++ "' expected " ++ expected
  | .rootReplaced kind replacement => "root " ++ kind ++ " node was replaced by " ++ replacement
  | .residual rule text => "rule '" ++ rule ++ "' still matches after desugaring: " ++ text
  | .unknownRule name => "unknown desugaring rule '" ++ name ++ "'"

instance : OfNodeError RewriteError := ⟨.node⟩

-- Names that were drawn before a failure stay drawn.
abbrev Rewriting (α : Type) := Walk NameSupply RewriteError α

namespace Rewriting

def fresh (hint : String) : Rewriting String := fun s => let (name, s) := s.fresh hint; (.ok name, s)

-- A step that draws no name.
def ofExcept {α : Type} : Except RewriteError α → Rewriting α
  | .ok a => pure a
  | .error e => throw e

end Rewriting

-- A rewrite rule. `rewrite` is for nodes that the matcher accepts, and does not ask it again.
structure Rule where
  name : String
  matcher : Matcher
  rewrite : Registry → Node → Rewriting Replacement

end TreeLowering
