import TreeLowering.Rewrite

namespace TreeLowering.Registry

variable (r : Registry)

def schema (kind : String) : Except RewriteError Schema := (r.get kind).mapError .schema

def node (kind : String) (fields : List (String × Value)) : Except RewriteError Node := do
  let schema ← r.schema kind
  (Node.ofFields schema fields).mapError .node

-- A node with every field unset, such as an operator or the context of a name.
def leaf (kind : String) : Except RewriteError Node := do return .empty (← r.schema kind)

def nameIn (context id : String) : Except RewriteError Node := do
  let context ← r.leaf context
  r.node "Name" [("id", .str id), ("ctx", .node context)]

def load (id : String) : Except RewriteError Node := r.nameIn "Load" id

def store (id : String) : Except RewriteError Node := r.nameIn "Store" id

def constant (v : Value) : Except RewriteError Node := r.node "NameConstant" [("value", v)]

def assignTo (target value : Node) : Except RewriteError Node :=
  r.node "Assign" [("targets", .ofNodes [target]), ("value", .node value)]

def assign (id : String) (value : Node) : Except RewriteError Node := do r.assignTo (← r.store id) value

def call (func : String) (args : List Node) : Except RewriteError Node := do
  let func ← r.load func
  r.node "Call" [("func", .node func), ("args", .ofNodes args)]

def whileTrue (body : List Value) : Except RewriteError Node := do
  let test ← r.constant (.bool true)
  r.node "While" [("test", .node test), ("body", .list body)]

def ifThen (test : Node) (body orelse : List Value) : Except RewriteError Node :=
  r.node "If" [("test", .node test), ("body", .list body), ("orelse", .list orelse)]

-- A `try` with one handler, for exceptions of the given name.
def tryExcept (body : List Node) (exception : String) (handler : List Node) :
    Except RewriteError Node := do
  let exception ← r.load exception
  let handler ← r.node "ExceptHandler" [("type", .node exception), ("body", .ofNodes handler)]
  r.node "Try" [("body", .ofNodes body), ("handlers", .ofNodes [handler])]

def negation (operand : Node) : Except RewriteError Node := do
  let op ← r.leaf "Not"
  r.node "UnaryOp" [("op", .node op), ("operand", .node operand)]

def raise (exc : Node) : Except RewriteError Node := r.node "Raise" [("exc", .node exc)]

end TreeLowering.Registry
