import TreeLowering.Proofs.WellTyped

namespace TreeLowering.Meaning

variable {σ ω ξ : Type}

inductive Datum (ω : Type) where
  | truth (b : Bool)
  | object (o : ω)

inductive Ending (ω ξ : Type) where
  | normal
  | broke
  | continued
  | returned (v : Datum ω)
  | raised (x : ξ)

namespace Ending

-- Whether a loop goes on after a turn with this ending.
def again : Ending ω ξ → Bool
  | normal | continued => true
  | _ => false

def leaving : Ending ω ξ → Ending ω ξ
  | broke => normal
  | r => r

def ofResult : Except ξ Unit → Ending ω ξ
  | .ok () => normal
  | .error x => raised x

theorem raised_ended {x : ξ} : (raised x : Ending ω ξ) ≠ normal := fun same => by cases same

end Ending

inductive Primitive where
  | iter
  | next

-- What is left open: the exceptions that end an iteration, the iterator protocol, truth tests on objects, and
-- the effects of expressions, targets and statements that are not run here.
structure Host (σ ω ξ : Type) where
  isStop : ξ → Prop
  unbound : String → ξ
  call : Primitive → Datum ω → σ → Except ξ (Datum ω) → σ → Prop
  holds : ω → σ → Except ξ Bool → σ → Prop
  eval : Node → σ → Except ξ (Datum ω) → σ → Prop
  bind : Node → Datum ω → σ → Except ξ Unit → σ → Prop
  exec : Node → σ → Ending ω ξ → σ → Prop

-- The state of the host, and the values of the names that are set apart.
structure Store (σ ω : Type) where
  user : σ
  apart : String → Option (Datum ω)

def Store.put (s : Store σ ω) (name : String) (v : Datum ω) : Store σ ω :=
  ⟨s.user, fun other => if other = name then some v else s.apart other⟩

inductive ExprView where
  | truth (b : Bool)
  | apart (name : String)
  | primitive (f : Primitive) (arg : Node)
  | other

inductive StmtView where
  | leave
  | assign (targets : List Node) (value : Node)
  | ifThen (test : Node) (body orelse : List Node)
  | whileLoop (test : Node) (body orelse : List Node)
  | forLoop (target iter : Node) (body orelse : List Node)
  | guarded (body handler : List Node)
  | other

def nodesAt (n : Node) (name : String) : List Node := (n.itemsAt name).filterMap Value.node?

def nameOf? (n : Node) : Option String := if n.kind = "Name" then n.textAt? "id" else none

def primitive? : String → Option Primitive
  | "iter" => some .iter
  | "next" => some .next
  | _ => none

def exprView (apart : String → Bool) (e : Node) : ExprView :=
  if e.kind = "NameConstant" then
    match e.get? "value" with
    | some (.bool b) => .truth b
    | _ => .other
  else if e.kind = "Call" then
    match ((e.nodeAt? "func").bind nameOf?).bind primitive?, nodesAt e "args", nodesAt e "keywords" with
    | some f, [arg], [] => .primitive f arg
    | _, _, _ => .other
  else
    match (nameOf? e).filter apart with
    | some name => .apart name
    | none => .other

-- A `try` whose only handler is for the end of an iteration and binds no name.
def guardView (n : Node) : StmtView :=
  match nodesAt n "handlers", nodesAt n "orelse", nodesAt n "finalbody" with
  | [handler], [], [] =>
    if (handler.nodeAt? "type").bind nameOf? = some "StopIteration" ∧ handler.textAt? "name" = none then
      .guarded (nodesAt n "body") (nodesAt handler "body")
    else .other
  | _, _, _ => .other

def stmtView (n : Node) : StmtView :=
  if n.kind = "Break" then .leave
  else if n.kind = "Assign" then
    match n.nodeAt? "value" with
    | some value => .assign (nodesAt n "targets") value
    | none => .other
  else if n.kind = "If" then
    match n.nodeAt? "test" with
    | some test => .ifThen test (nodesAt n "body") (nodesAt n "orelse")
    | none => .other
  else if n.kind = "While" then
    match n.nodeAt? "test" with
    | some test => .whileLoop test (nodesAt n "body") (nodesAt n "orelse")
    | none => .other
  else if n.kind = "For" then
    match n.nodeAt? "target", n.nodeAt? "iter" with
    | some target, some iter => .forLoop target iter (nodesAt n "body") (nodesAt n "orelse")
    | _, _ => .other
  else if n.kind = "Try" then guardView n
  else .other

section Runs

variable (H : Host σ ω ξ) (apart : String → Bool)

inductive Eval : Node → Store σ ω → Except ξ (Datum ω) → Store σ ω → Prop where
  | truth {e : Node} {b : Bool} {s : Store σ ω} (view : exprView apart e = .truth b) :
      Eval e s (.ok (.truth b)) s
  | bound {e : Node} {name : String} {v : Datum ω} {s : Store σ ω} (view : exprView apart e = .apart name)
      (held : s.apart name = some v) : Eval e s (.ok v) s
  | unbound {e : Node} {name : String} {s : Store σ ω} (view : exprView apart e = .apart name)
      (missing : s.apart name = none) : Eval e s (.error (H.unbound name)) s
  | called {e arg : Node} {f : Primitive} {v : Datum ω} {r : Except ξ (Datum ω)} {s t : Store σ ω} {u : σ}
      (view : exprView apart e = .primitive f arg) (first : Eval arg s (.ok v) t) (call : H.call f v t.user r u) :
      Eval e s r ⟨u, t.apart⟩
  | argument {e arg : Node} {f : Primitive} {x : ξ} {s t : Store σ ω}
      (view : exprView apart e = .primitive f arg) (failed : Eval arg s (.error x) t) : Eval e s (.error x) t
  | other {e : Node} {r : Except ξ (Datum ω)} {s : Store σ ω} {u : σ} (view : exprView apart e = .other)
      (host : H.eval e s.user r u) : Eval e s r ⟨u, s.apart⟩

inductive Test (e : Node) (s : Store σ ω) : Except ξ Bool → Store σ ω → Prop where
  | truth {b : Bool} {t : Store σ ω} (value : Eval H apart e s (.ok (.truth b)) t) : Test e s (.ok b) t
  | object {o : ω} {r : Except ξ Bool} {t : Store σ ω} {u : σ} (value : Eval H apart e s (.ok (.object o)) t)
      (host : H.holds o t.user r u) : Test e s r ⟨u, t.apart⟩
  | failed {x : ξ} {t : Store σ ω} (value : Eval H apart e s (.error x) t) : Test e s (.error x) t

inductive Bind (target : Node) (v : Datum ω) (s : Store σ ω) : Except ξ Unit → Store σ ω → Prop where
  | apart {name : String} (named : (nameOf? target).filter apart = some name) :
      Bind target v s (.ok ()) (s.put name v)
  | other {r : Except ξ Unit} {u : σ} (named : (nameOf? target).filter apart = none)
      (host : H.bind target v s.user r u) : Bind target v s r ⟨u, s.apart⟩

-- Several targets take the same value, from left to right.
inductive BindAll (v : Datum ω) : List Node → Store σ ω → Except ξ Unit → Store σ ω → Prop where
  | nil {s : Store σ ω} : BindAll v [] s (.ok ()) s
  | cons {target : Node} {rest : List Node} {r : Except ξ Unit} {s t w : Store σ ω}
      (first : Bind H apart target v s (.ok ()) t) (others : BindAll v rest t r w) :
      BindAll v (target :: rest) s r w
  | failed {target : Node} {rest : List Node} {x : ξ} {s t : Store σ ω}
      (first : Bind H apart target v s (.error x) t) : BindAll v (target :: rest) s (.error x) t

-- What can be run: statements in a row, one statement, and what is left of a `for` loop over an iterator.
inductive Code (ω : Type) where
  | block (b : List Node)
  | stmt (n : Node)
  | turns (it : Datum ω) (n : Node)

inductive Run : Code ω → Store σ ω → Ending ω ξ → Store σ ω → Prop where
  | nil {s : Store σ ω} : Run (.block []) s .normal s
  | next {n : Node} {rest : List Node} {r : Ending ω ξ} {s t w : Store σ ω} (first : Run (.stmt n) s .normal t)
      (others : Run (.block rest) t r w) : Run (.block (n :: rest)) s r w
  | stop {n : Node} {rest : List Node} {r : Ending ω ξ} {s t : Store σ ω} (first : Run (.stmt n) s r t)
      (ended : r ≠ .normal) : Run (.block (n :: rest)) s r t
  | other {n : Node} {r : Ending ω ξ} {s : Store σ ω} {u : σ} (view : stmtView n = .other)
      (host : H.exec n s.user r u) : Run (.stmt n) s r ⟨u, s.apart⟩
  | leave {n : Node} {s : Store σ ω} (view : stmtView n = .leave) : Run (.stmt n) s .broke s
  | assign {n value : Node} {targets : List Node} {v : Datum ω} {r : Except ξ Unit} {s t w : Store σ ω}
      (view : stmtView n = .assign targets value) (first : Eval H apart value s (.ok v) t)
      (bound : BindAll H apart v targets t r w) : Run (.stmt n) s (.ofResult r) w
  | unassigned {n value : Node} {targets : List Node} {x : ξ} {s t : Store σ ω}
      (view : stmtView n = .assign targets value) (failed : Eval H apart value s (.error x) t) :
      Run (.stmt n) s (.raised x) t
  | branch {n test : Node} {body orelse : List Node} {b : Bool} {r : Ending ω ξ} {s t w : Store σ ω}
      (view : stmtView n = .ifThen test body orelse) (tested : Test H apart test s (.ok b) t)
      (taken : Run (.block (if b then body else orelse)) t r w) : Run (.stmt n) s r w
  | untested {n test : Node} {body orelse : List Node} {x : ξ} {s t : Store σ ω}
      (view : stmtView n = .ifThen test body orelse) (failed : Test H apart test s (.error x) t) :
      Run (.stmt n) s (.raised x) t
  | guarded {n : Node} {body handler : List Node} {r : Ending ω ξ} {s t : Store σ ω}
      (view : stmtView n = .guarded body handler) (ran : Run (.block body) s r t)
      (uncaught : ∀ x, r = .raised x → ¬ H.isStop x) : Run (.stmt n) s r t
  | handled {n : Node} {body handler : List Node} {x : ξ} {r : Ending ω ξ} {s t w : Store σ ω}
      (view : stmtView n = .guarded body handler) (ran : Run (.block body) s (.raised x) t)
      (caught : H.isStop x) (handling : Run (.block handler) t r w) : Run (.stmt n) s r w
  | whileFailed {n test : Node} {body orelse : List Node} {x : ξ} {s t : Store σ ω}
      (view : stmtView n = .whileLoop test body orelse) (failed : Test H apart test s (.error x) t) :
      Run (.stmt n) s (.raised x) t
  | whileDone {n test : Node} {body orelse : List Node} {r : Ending ω ξ} {s t w : Store σ ω}
      (view : stmtView n = .whileLoop test body orelse) (tested : Test H apart test s (.ok false) t)
      (after : Run (.block orelse) t r w) : Run (.stmt n) s r w
  | whileAgain {n test : Node} {body orelse : List Node} {q r : Ending ω ξ} {s t w z : Store σ ω}
      (view : stmtView n = .whileLoop test body orelse) (tested : Test H apart test s (.ok true) t)
      (turn : Run (.block body) t q w) (again : q.again = true) (rest : Run (.stmt n) w r z) :
      Run (.stmt n) s r z
  | whileLeft {n test : Node} {body orelse : List Node} {q : Ending ω ξ} {s t w : Store σ ω}
      (view : stmtView n = .whileLoop test body orelse) (tested : Test H apart test s (.ok true) t)
      (turn : Run (.block body) t q w) (left : q.again = false) : Run (.stmt n) s q.leaving w
  | forLoop {n target iter : Node} {body orelse : List Node} {v it : Datum ω} {r : Ending ω ξ}
      {s t w : Store σ ω} {u : σ} (view : stmtView n = .forLoop target iter body orelse)
      (first : Eval H apart iter s (.ok v) t) (started : H.call .iter v t.user (.ok it) u)
      (turns : Run (.turns it n) ⟨u, t.apart⟩ r w) : Run (.stmt n) s r w
  | forFailed {n target iter : Node} {body orelse : List Node} {x : ξ} {s t : Store σ ω}
      (view : stmtView n = .forLoop target iter body orelse) (failed : Eval H apart iter s (.error x) t) :
      Run (.stmt n) s (.raised x) t
  | forRefused {n target iter : Node} {body orelse : List Node} {v : Datum ω} {x : ξ} {s t : Store σ ω} {u : σ}
      (view : stmtView n = .forLoop target iter body orelse) (first : Eval H apart iter s (.ok v) t)
      (refused : H.call .iter v t.user (.error x) u) : Run (.stmt n) s (.raised x) ⟨u, t.apart⟩
  | exhausted {n target iter : Node} {body orelse : List Node} {it : Datum ω} {x : ξ} {r : Ending ω ξ}
      {s w : Store σ ω} {u : σ} (view : stmtView n = .forLoop target iter body orelse)
      (last : H.call .next it s.user (.error x) u) (stop : H.isStop x)
      (after : Run (.block orelse) ⟨u, s.apart⟩ r w) : Run (.turns it n) s r w
  | interrupted {n target iter : Node} {body orelse : List Node} {it : Datum ω} {x : ξ} {s : Store σ ω} {u : σ}
      (view : stmtView n = .forLoop target iter body orelse) (last : H.call .next it s.user (.error x) u)
      (other : ¬ H.isStop x) : Run (.turns it n) s (.raised x) ⟨u, s.apart⟩
  | unbound {n target iter : Node} {body orelse : List Node} {it v : Datum ω} {x : ξ} {s t : Store σ ω} {u : σ}
      (view : stmtView n = .forLoop target iter body orelse) (item : H.call .next it s.user (.ok v) u)
      (failed : Bind H apart target v ⟨u, s.apart⟩ (.error x) t) : Run (.turns it n) s (.raised x) t
  | again {n target iter : Node} {body orelse : List Node} {it v : Datum ω} {q r : Ending ω ξ}
      {s t w z : Store σ ω} {u : σ} (view : stmtView n = .forLoop target iter body orelse)
      (item : H.call .next it s.user (.ok v) u) (bound : Bind H apart target v ⟨u, s.apart⟩ (.ok ()) t)
      (turn : Run (.block body) t q w) (goesOn : q.again = true) (rest : Run (.turns it n) w r z) :
      Run (.turns it n) s r z
  | left {n target iter : Node} {body orelse : List Node} {it v : Datum ω} {q : Ending ω ξ}
      {s t w : Store σ ω} {u : σ} (view : stmtView n = .forLoop target iter body orelse)
      (item : H.call .next it s.user (.ok v) u) (bound : Bind H apart target v ⟨u, s.apart⟩ (.ok ()) t)
      (turn : Run (.block body) t q w) (left : q.again = false) : Run (.turns it n) s q.leaving w

-- Code that neither reads nor writes the names that are set apart.
def Blind (c : Code ω) : Prop :=
  ∀ s r t, Run H apart c s r t → t.apart = s.apart ∧ ∀ other, Run H apart c ⟨s.user, other⟩ r ⟨t.user, other⟩

def BlindExpr (e : Node) : Prop :=
  ∀ s r t, Eval H apart e s r t →
    t.apart = s.apart ∧ ∀ other, Eval H apart e ⟨s.user, other⟩ r ⟨t.user, other⟩

end Runs

end TreeLowering.Meaning
