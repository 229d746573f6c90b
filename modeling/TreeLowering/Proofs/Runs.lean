import TreeLowering.Proofs.Meaning

namespace TreeLowering.Meaning

variable {σ ω ξ : Type} {H : Host σ ω ξ} {apart : String → Bool}

section Expressions

variable {e arg target : Node} {name : String} {b : Bool} {v : Datum ω} {s t : Store σ ω}
  {q : Except ξ (Datum ω)}

theorem eval_truth (view : exprView apart e = .truth b) :
    Eval H apart e s q t ↔ q = .ok (.truth b) ∧ t = s := by
  constructor
  · intro run
    cases run with
    | truth found =>
      cases view.symm.trans found
      exact ⟨rfl, rfl⟩
    | bound found | unbound found | called found | argument found | other found =>
      cases view.symm.trans found
  · intro shape
    obtain ⟨rfl, rfl⟩ := shape
    exact .truth view

theorem eval_held (view : exprView apart e = .apart name) (held : s.apart name = some v) :
    Eval H apart e s q t ↔ q = .ok v ∧ t = s := by
  constructor
  · intro run
    cases run with
    | bound found there =>
      cases view.symm.trans found
      cases held.symm.trans there
      exact ⟨rfl, rfl⟩
    | unbound found missing =>
      cases view.symm.trans found
      cases held.symm.trans missing
    | truth found | called found | argument found | other found => cases view.symm.trans found
  · intro shape
    obtain ⟨rfl, rfl⟩ := shape
    exact .bound view held

theorem eval_primitive {f : Primitive} (view : exprView apart e = .primitive f arg) :
    Eval H apart e s q t ↔
      (∃ v w u, Eval H apart arg s (.ok v) w ∧ H.call f v w.user q u ∧ t = ⟨u, w.apart⟩) ∨
      ∃ x, Eval H apart arg s (.error x) t ∧ q = .error x := by
  constructor
  · intro run
    cases run with
    | called found first call =>
      cases view.symm.trans found
      exact .inl ⟨_, _, _, first, call, rfl⟩
    | argument found failed =>
      cases view.symm.trans found
      exact .inr ⟨_, failed, rfl⟩
    | truth found | bound found | unbound found | other found => cases view.symm.trans found
  · intro either
    rcases either with ⟨v, w, u, first, call, rfl⟩ | ⟨x, failed, rfl⟩
    · exact .called view first call
    · exact .argument view failed

theorem test_truth {p : Except ξ Bool} (only : ∀ {q t}, Eval H apart e s q t ↔ q = .ok (.truth b) ∧ t = s) :
    Test H apart e s p t ↔ p = .ok b ∧ t = s := by
  constructor
  · intro run
    cases run with
    | truth value =>
      obtain ⟨same, rfl⟩ := only.mp value
      cases same
      exact ⟨rfl, rfl⟩
    | object value => cases (only.mp value).1
    | failed value => cases (only.mp value).1
  · intro shape
    obtain ⟨rfl, rfl⟩ := shape
    exact .truth (only.mpr ⟨rfl, rfl⟩)

theorem bind_apart {p : Except ξ Unit} (named : (nameOf? target).filter apart = some name) :
    Bind H apart target v s p t ↔ p = .ok () ∧ t = s.put name v := by
  constructor
  · intro run
    cases run with
    | apart found =>
      cases named.symm.trans found
      exact ⟨rfl, rfl⟩
    | other found => cases named.symm.trans found
  · intro shape
    obtain ⟨rfl, rfl⟩ := shape
    exact .apart named

theorem bind_other {p : Except ξ Unit} (named : (nameOf? target).filter apart = none) :
    Bind H apart target v s p t ↔ ∃ u, H.bind target v s.user p u ∧ t = ⟨u, s.apart⟩ := by
  constructor
  · intro run
    cases run with
    | apart found => cases named.symm.trans found
    | other found host => exact ⟨_, host, rfl⟩
  · intro shape
    obtain ⟨u, host, rfl⟩ := shape
    exact .other named host

theorem bindAll_one {p : Except ξ Unit} : BindAll H apart v [target] s p t ↔ Bind H apart target v s p t := by
  constructor
  · intro run
    cases run with
    | cons first others =>
      cases others
      exact first
    | failed first => exact first
  · intro bound
    cases p with
    | ok => exact .cons bound .nil
    | error => exact .failed bound

end Expressions

section Statements

variable {n : Node} {rest : List Node} {r : Ending ω ξ} {s t : Store σ ω}

def Performs (H : Host σ ω ξ) (apart : String → Bool) (n : Node) (s : Store σ ω) (r : Ending ω ξ)
    (t : Store σ ω) : StmtView → Prop
  | .leave => r = .broke ∧ t = s
  | .assign targets value =>
    (∃ v w p, Eval H apart value s (.ok v) w ∧ BindAll H apart v targets w p t ∧ r = .ofResult p) ∨
    ∃ x, Eval H apart value s (.error x) t ∧ r = .raised x
  | .ifThen test body orelse =>
    (∃ b w, Test H apart test s (.ok b) w ∧ Run H apart (.block (if b then body else orelse)) w r t) ∨
    ∃ x, Test H apart test s (.error x) t ∧ r = .raised x
  | .whileLoop test body orelse =>
    (∃ w, Test H apart test s (.ok false) w ∧ Run H apart (.block orelse) w r t) ∨
    (∃ w q z, Test H apart test s (.ok true) w ∧ Run H apart (.block body) w q z ∧ q.again = true ∧
      Run H apart (.stmt n) z r t) ∨
    (∃ w q, Test H apart test s (.ok true) w ∧ Run H apart (.block body) w q t ∧ q.again = false ∧
      r = q.leaving) ∨
    ∃ x, Test H apart test s (.error x) t ∧ r = .raised x
  | .forLoop _ iter _ _ =>
    (∃ v w it u, Eval H apart iter s (.ok v) w ∧ H.call .iter v w.user (.ok it) u ∧
      Run H apart (.turns it n) ⟨u, w.apart⟩ r t) ∨
    (∃ v w x u, Eval H apart iter s (.ok v) w ∧ H.call .iter v w.user (.error x) u ∧ r = .raised x ∧
      t = ⟨u, w.apart⟩) ∨
    ∃ x, Eval H apart iter s (.error x) t ∧ r = .raised x
  | .guarded body handler =>
    (∃ x w, Run H apart (.block body) s (.raised x) w ∧ H.isStop x ∧ Run H apart (.block handler) w r t) ∨
    (Run H apart (.block body) s r t ∧ ∀ x, r = .raised x → ¬ H.isStop x)
  | .other => ∃ u, H.exec n s.user r u ∧ t = ⟨u, s.apart⟩

theorem run_stmt : Run H apart (.stmt n) s r t ↔ Performs H apart n s r t (stmtView n) := by
  constructor
  · intro run
    cases run with
    | other view host => rw [view]; exact ⟨_, host, rfl⟩
    | leave view => rw [view]; exact ⟨rfl, rfl⟩
    | assign view first bound => rw [view]; exact .inl ⟨_, _, _, first, bound, rfl⟩
    | unassigned view failed => rw [view]; exact .inr ⟨_, failed, rfl⟩
    | branch view tested taken => rw [view]; exact .inl ⟨_, _, tested, taken⟩
    | untested view failed => rw [view]; exact .inr ⟨_, failed, rfl⟩
    | guarded view ran uncaught => rw [view]; exact .inr ⟨ran, uncaught⟩
    | handled view ran caught handling => rw [view]; exact .inl ⟨_, _, ran, caught, handling⟩
    | whileFailed view failed => rw [view]; exact .inr (.inr (.inr ⟨_, failed, rfl⟩))
    | whileDone view tested after => rw [view]; exact .inl ⟨_, tested, after⟩
    | whileAgain view tested turn again rest =>
      rw [view]; exact .inr (.inl ⟨_, _, _, tested, turn, again, rest⟩)
    | whileLeft view tested turn left => rw [view]; exact .inr (.inr (.inl ⟨_, _, tested, turn, left, rfl⟩))
    | forLoop view first started turns => rw [view]; exact .inl ⟨_, _, _, _, first, started, turns⟩
    | forFailed view failed => rw [view]; exact .inr (.inr ⟨_, failed, rfl⟩)
    | forRefused view first refused =>
      rw [view]; exact .inr (.inl ⟨_, _, _, _, first, refused, rfl, rfl⟩)
  · intro done
    cases view : stmtView n with
    | leave =>
      rw [view] at done
      obtain ⟨rfl, rfl⟩ := done
      exact .leave view
    | assign targets value =>
      rw [view] at done
      rcases done with ⟨v, w, p, first, bound, rfl⟩ | ⟨x, failed, rfl⟩
      · exact .assign view first bound
      · exact .unassigned view failed
    | ifThen test body orelse =>
      rw [view] at done
      rcases done with ⟨b, w, tested, taken⟩ | ⟨x, failed, rfl⟩
      · exact .branch view tested taken
      · exact .untested view failed
    | whileLoop test body orelse =>
      rw [view] at done
      rcases done with ⟨w, tested, after⟩ | ⟨w, q, z, tested, turn, again, rest⟩ |
        ⟨w, q, tested, turn, left, rfl⟩ | ⟨x, failed, rfl⟩
      · exact .whileDone view tested after
      · exact .whileAgain view tested turn again rest
      · exact .whileLeft view tested turn left
      · exact .whileFailed view failed
    | forLoop target iter body orelse =>
      rw [view] at done
      rcases done with ⟨v, w, it, u, first, started, turns⟩ | ⟨v, w, x, u, first, refused, rfl, rfl⟩ |
        ⟨x, failed, rfl⟩
      · exact .forLoop view first started turns
      · exact .forRefused view first refused
      · exact .forFailed view failed
    | guarded body handler =>
      rw [view] at done
      rcases done with ⟨x, w, ran, caught, handling⟩ | ⟨ran, uncaught⟩
      · exact .handled view ran caught handling
      · exact .guarded view ran uncaught
    | other =>
      rw [view] at done
      obtain ⟨u, host, rfl⟩ := done
      exact .other view host

theorem run_nil : Run H apart (.block []) s r t ↔ r = .normal ∧ t = s := by
  constructor
  · intro run
    cases run
    exact ⟨rfl, rfl⟩
  · intro shape
    obtain ⟨rfl, rfl⟩ := shape
    exact .nil

theorem run_cons : Run H apart (.block (n :: rest)) s r t ↔
    (∃ w, Run H apart (.stmt n) s .normal w ∧ Run H apart (.block rest) w r t) ∨
    (Run H apart (.stmt n) s r t ∧ r ≠ .normal) := by
  constructor
  · intro run
    cases run with
    | next first others => exact .inl ⟨_, first, others⟩
    | stop first ended => exact .inr ⟨first, ended⟩
  · intro either
    rcases either with ⟨w, first, others⟩ | ⟨first, ended⟩
    · exact .next first others
    · exact .stop first ended

theorem run_one : Run H apart (.block [n]) s r t ↔ Run H apart (.stmt n) s r t := by
  rw [run_cons]
  constructor
  · intro either
    rcases either with ⟨w, first, others⟩ | ⟨first, -⟩
    · obtain ⟨rfl, rfl⟩ := run_nil.mp others
      exact first
    · exact first
  · intro first
    by_cases ended : r = .normal
    · subst ended
      exact .inl ⟨t, first, .nil⟩
    · exact .inr ⟨first, ended⟩

-- A statement that ends normally in one state is passed.
theorem run_passed {w : Store σ ω} (only : ∀ {r t}, Run H apart (.stmt n) s r t ↔ r = .normal ∧ t = w) :
    Run H apart (.block (n :: rest)) s r t ↔ Run H apart (.block rest) w r t := by
  rw [run_cons]
  constructor
  · intro either
    rcases either with ⟨z, first, others⟩ | ⟨first, ended⟩
    · obtain ⟨-, rfl⟩ := only.mp first
      exact others
    · exact absurd (only.mp first).1 ended
  · exact fun others => .inl ⟨w, only.mpr ⟨rfl, rfl⟩, others⟩

theorem run_assign {target value : Node} (view : stmtView n = .assign [target] value) :
    Run H apart (.stmt n) s r t ↔
      (∃ v w p, Eval H apart value s (.ok v) w ∧ Bind H apart target v w p t ∧ r = .ofResult p) ∨
      ∃ x, Eval H apart value s (.error x) t ∧ r = .raised x := by
  rw [run_stmt, view]
  simp only [Performs, bindAll_one]

end Statements

section Loops

variable {n : Node} {motive : Store σ ω → Ending ω ξ → Store σ ω → Prop} {s t : Store σ ω} {r : Ending ω ξ}

theorem forever_induct {test : Node} {body orelse : List Node}
    (view : stmtView n = .whileLoop test body orelse)
    (always : ∀ {s t : Store σ ω} {p : Except ξ Bool}, Test H apart test s p t ↔ p = .ok true ∧ t = s)
    (again : ∀ {s w t q r}, Run H apart (.block body) s q w → q.again = true → motive w r t → motive s r t)
    (left : ∀ {s t q}, Run H apart (.block body) s q t → q.again = false → motive s q.leaving t)
    (run : Run H apart (.stmt n) s r t) : motive s r t := by
  generalize same : Code.stmt n = c at run
  induction run with
  | whileAgain found tested turn goesOn rest turn_ih rest_ih =>
    cases same
    cases view.symm.trans found
    obtain ⟨-, rfl⟩ := always.mp tested
    exact again turn goesOn (rest_ih rfl)
  | whileLeft found tested turn leaves =>
    cases same
    cases view.symm.trans found
    obtain ⟨-, rfl⟩ := always.mp tested
    exact left turn leaves
  | whileDone found tested =>
    cases same
    cases view.symm.trans found
    cases (always.mp tested).1
  | whileFailed found failed =>
    cases same
    cases view.symm.trans found
    cases (always.mp failed).1
  | other found | leave found | assign found | unassigned found | branch found | untested found
  | guarded found | handled found | forLoop found | forFailed found | forRefused found =>
    cases same
    cases view.symm.trans found
  | nil | next | stop | exhausted | interrupted | unbound | again | left => cases same

theorem turns_induct {it : Datum ω} {target iter : Node} {body orelse : List Node}
    (view : stmtView n = .forLoop target iter body orelse)
    (exhausted : ∀ {s u x r t}, H.call .next it s.user (.error x) u → H.isStop x →
      Run H apart (.block orelse) ⟨u, s.apart⟩ r t → motive s r t)
    (interrupted : ∀ {s u x}, H.call .next it s.user (.error x) u → ¬ H.isStop x →
      motive s (.raised x) ⟨u, s.apart⟩)
    (unbound : ∀ {s u v x t}, H.call .next it s.user (.ok v) u →
      Bind H apart target v ⟨u, s.apart⟩ (.error x) t → motive s (.raised x) t)
    (again : ∀ {s u v w q z r t}, H.call .next it s.user (.ok v) u →
      Bind H apart target v ⟨u, s.apart⟩ (.ok ()) w → Run H apart (.block body) w q z → q.again = true →
      motive z r t → motive s r t)
    (left : ∀ {s u v w q t}, H.call .next it s.user (.ok v) u →
      Bind H apart target v ⟨u, s.apart⟩ (.ok ()) w → Run H apart (.block body) w q t → q.again = false →
      motive s q.leaving t)
    (run : Run H apart (.turns it n) s r t) : motive s r t := by
  generalize same : Code.turns it n = c at run
  induction run with
  | exhausted found last stop after =>
    cases same
    cases view.symm.trans found
    exact exhausted last stop after
  | interrupted found last other =>
    cases same
    exact interrupted last other
  | unbound found item failed =>
    cases same
    cases view.symm.trans found
    exact unbound item failed
  | again found item bound turn goesOn rest turn_ih rest_ih =>
    cases same
    cases view.symm.trans found
    exact again item bound turn goesOn (rest_ih rfl)
  | left found item bound turn leaves =>
    cases same
    cases view.symm.trans found
    exact left item bound turn leaves
  | nil | next | stop | other | leave | assign | unassigned | branch | untested | guarded | handled
  | whileFailed | whileDone | whileAgain | whileLeft | forLoop | forFailed | forRefused => cases same

end Loops

-- What code does to the state of the host, whatever is set apart.
def Does (H : Host σ ω ξ) (apart : String → Bool) (c : Code ω) (u : σ) (r : Ending ω ξ) (v : σ) : Prop :=
  ∀ other, Run H apart c ⟨u, other⟩ r ⟨v, other⟩

def Yields (H : Host σ ω ξ) (apart : String → Bool) (e : Node) (u : σ) (q : Except ξ (Datum ω)) (v : σ) : Prop :=
  ∀ other, Eval H apart e ⟨u, other⟩ q ⟨v, other⟩

section Blind

variable {c : Code ω} {e : Node} {s t : Store σ ω} {r : Ending ω ξ} {q : Except ξ (Datum ω)}

theorem Blind.run (blind : Blind H apart c) :
    Run H apart c s r t ↔ Does H apart c s.user r t.user ∧ t.apart = s.apart := by
  constructor
  · exact fun run => (blind s r t run).symm
  · intro shape
    obtain ⟨does, same⟩ := shape
    obtain ⟨v, other⟩ := t
    cases same
    exact does s.apart

theorem BlindExpr.eval (blind : BlindExpr H apart e) :
    Eval H apart e s q t ↔ Yields H apart e s.user q t.user ∧ t.apart = s.apart := by
  constructor
  · exact fun value => (blind s q t value).symm
  · intro shape
    obtain ⟨yields, same⟩ := shape
    obtain ⟨v, other⟩ := t
    cases same
    exact yields s.apart

end Blind

end TreeLowering.Meaning
