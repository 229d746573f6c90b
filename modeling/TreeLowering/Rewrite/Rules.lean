import TreeLowering.Rewrite.Construct

namespace TreeLowering

namespace Rule

-- Moves a node out of a field of the node that a rule consumes.
def takeNode (rule : String) (n : Node) (field : String) : Except RewriteError (Node × Node) := do
  let (v, rest) ← (n.take field).mapError .node
  match v.bind Value.node? with
  | some child => return (child, rest)
  | none => throw (.shape rule ("a node in " ++ n.kind ++ "." ++ field))

-- Moves the elements of a sequence out; a field without a value has none.
def takeItems (rule : String) (n : Node) (field : String) : Except RewriteError (List Value × Node) := do
  let (v, rest) ← (n.take field).mapError .node
  match v with
  | none => return ([], rest)
  | some (.list items) | some (.tuple items) => return (items, rest)
  | some v =>
    throw (.shape rule ("a sequence in " ++ n.kind ++ "." ++ field ++ ", got " ++ v.typeName))

structure Loop where
  target : Node
  iter : Node
  body : List Value
  orelse : List Value

-- The names that one lowered loop uses: the iterator, the item, and with an `else` the flag that is true
-- once the iterator is exhausted.
structure LoopNames where
  iterator : String
  item : String
  exhausted : Option String

namespace Loop

def ofNode (rule : String) (n : Node) : Except RewriteError Loop := do
  let (target, n) ← takeNode rule n "target"
  let (iter, n) ← takeNode rule n "iter"
  let (body, n) ← takeItems rule n "body"
  let (orelse, _) ← takeItems rule n "orelse"
  return ⟨target, iter, body, orelse⟩

def drawNames (orelse : List Value) : Rewriting LoopNames := do
  let iterator ← Rewriting.fresh "__iter"
  let item ← Rewriting.fresh "__item"
  if orelse.isEmpty then return ⟨iterator, item, none⟩
  else return ⟨iterator, item, some (← Rewriting.fresh "__nobreak")⟩

def setFlag (r : Registry) (names : LoopNames) (b : Bool) : Except RewriteError (List Node) :=
  match names.exhausted with
  | none => return []
  | some flag => do
    let value ← r.constant (.bool b)
    return [← r.assign flag value]

-- `try: item = next(iterator)` with a handler that leaves the loop once there is no further item. Nothing
-- else stands in the `try`, so that an exception of the loop's own body is not taken for the end.
def advance (r : Registry) (names : LoopNames) : Except RewriteError Node := do
  let iterator ← r.load names.iterator
  let next ← r.call "next" [iterator]
  let step ← r.assign names.item next
  let raised ← setFlag r names true
  let leave ← r.leaf "Break"
  r.tryExcept [step] "StopIteration" (raised ++ [leave])

-- The statements that a loop becomes. The body acts on the `while` loop, so `break` and `continue` in it
-- keep their meaning, and the `else` part runs if the flag says that the iterator was exhausted.
def lower (r : Registry) (names : LoopNames) (loop : Loop) : Except RewriteError (List Node) := do
  let cleared ← setFlag r names false
  let iterator ← r.call "iter" [loop.iter]
  let start ← r.assign names.iterator iterator
  let step ← advance r names
  let item ← r.load names.item
  let bind ← r.assignTo loop.target item
  let repeated ← r.whileTrue (.node step :: .node bind :: loop.body)
  match names.exhausted with
  | none => return cleared ++ [start, repeated]
  | some flag => do
    let test ← r.load flag
    return cleared ++ [start, repeated, ← r.ifThen test loop.orelse []]

end Loop

def forLoopName : String := "for-loop"

def forLoop : Rule where
  name := forLoopName
  matcher := .ofKind "For"
  rewrite := fun r n => do
    let loop ← Rewriting.ofExcept (Loop.ofNode forLoopName n)
    let names ← Loop.drawNames loop.orelse
    let statements ← Rewriting.ofExcept (loop.lower r names)
    return .ofNodes statements

def augAssignName : String := "aug-assign"

def spelledOut (r : Registry) (n : Node) : Except RewriteError Node := do
  let (target, n) ← takeNode augAssignName n "target"
  let (op, n) ← takeNode augAssignName n "op"
  let (value, _) ← takeNode augAssignName n "value"
  match (target.get? "id").bind Value.text? with
  | none => throw (.shape augAssignName "a name target")
  | some id =>
    let left ← r.load id
    let result ← r.node "BinOp" [("left", .node left), ("op", .node op), ("right", .node value)]
    r.assign id result

-- Replaces `x op= value` for a plain name `x`. Other targets would have their parts evaluated twice, and
-- are left alone.
def augAssign : Rule where
  name := augAssignName
  matcher := (Matcher.ofKind "AugAssign").attr "target" (.ofKind "Name")
  rewrite := fun r n => Rewriting.ofExcept ((spelledOut r n).map .ofNode)

def assertName : String := "assert"

-- The statement `if not test: raise AssertionError(msg)`.
def raiseUnless (r : Registry) (n : Node) : Except RewriteError Node := do
  let (test, n) ← takeNode assertName n "test"
  let (msg, _) ← (n.take "msg").mapError .node
  let error ← r.call "AssertionError" (msg.bind Value.node?).toList
  let raised ← r.raise error
  let failed ← r.negation test
  r.ifThen failed [.node raised] []

def assertion : Rule where
  name := assertName
  matcher := .ofKind "Assert"
  rewrite := fun r n => Rewriting.ofExcept ((raiseUnless r n).map .ofNode)

def standard : List Rule := [forLoop, augAssign, assertion]

def ofName? (name : String) : Option Rule := standard.find? fun rule => rule.name == name

end Rule

end TreeLowering
