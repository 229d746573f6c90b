import TreeLowering.Proofs.Runs

namespace TreeLowering.Meaning

variable {σ ω ξ : Type} {H : Host σ ω ξ} {apart : String → Bool}

section Turns

variable (H : Host σ ω ξ) (apart : String → Bool) (it : Datum ω) (target : Node) (body : List Node)

-- The turns over an iterator, how they end, and whether they end with the iterator.
inductive Iterates : σ → Ending ω ξ → Bool → σ → Prop where
  | exhausted {u v : σ} {x : ξ} (last : H.call .next it u (.error x) v) (stop : H.isStop x) :
      Iterates u .normal true v
  | interrupted {u v : σ} {x : ξ} (last : H.call .next it u (.error x) v) (other : ¬ H.isStop x) :
      Iterates u (.raised x) false v
  | unbound {u v w : σ} {d : Datum ω} {x : ξ} (item : H.call .next it u (.ok d) v)
      (failed : H.bind target d v (.error x) w) : Iterates u (.raised x) false w
  | again {u v w y z : σ} {d : Datum ω} {q r : Ending ω ξ} {done : Bool} (item : H.call .next it u (.ok d) v)
      (bound : H.bind target d v (.ok ()) w) (turn : Does H apart (.block body) w q y) (goesOn : q.again = true)
      (rest : Iterates y r done z) : Iterates u r done z
  | left {u v w z : σ} {d : Datum ω} {q : Ending ω ξ} (item : H.call .next it u (.ok d) v)
      (bound : H.bind target d v (.ok ()) w) (turn : Does H apart (.block body) w q z)
      (leaves : q.again = false) : Iterates u q.leaving false z

def Finishes (orelse : List Node) (u : σ) (r : Ending ω ξ) (v : σ) : Prop :=
  (∃ q w, Iterates H apart it target body u q true w ∧ Does H apart (.block orelse) w r v) ∨
  Iterates H apart it target body u r false v

-- A loop from the evaluation of its iterable on.
def Loops (iter : Node) (orelse : List Node) (u : σ) (r : Ending ω ξ) (v : σ) : Prop :=
  (∃ d w it z, Yields H apart iter u (.ok d) w ∧ H.call .iter d w (.ok it) z ∧
    Finishes H apart it target body orelse z r v) ∨
  (∃ d w x, Yields H apart iter u (.ok d) w ∧ H.call .iter d w (.error x) v ∧ r = .raised x) ∨
  ∃ x, Yields H apart iter u (.error x) v ∧ r = .raised x

end Turns

-- The parts of a loop do not see the names that are set apart.
structure Unseen (H : Host σ ω ξ) (apart : String → Bool) (target iter : Node) (body orelse : List Node) :
    Prop where
  target : (nameOf? target).filter apart = none
  iter : BlindExpr H apart iter
  body : Blind H apart (.block body)
  orelse : Blind H apart (.block orelse)

section Source

variable {n target iter : Node} {body orelse : List Node} {it : Datum ω} {r : Ending ω ξ} {s t : Store σ ω}
  {u v : σ}

theorem Iterates.normal {q : Ending ω ξ} {done : Bool}
    (turns : Iterates H apart it target body u q done v) (completed : done = true) : q = .normal := by
  induction turns with
  | exhausted => rfl
  | again item bound turn goesOn rest ih => exact ih completed
  | interrupted | unbound | left => cases completed

-- Turns with what is set apart: no turn changes it.
def Turned (H : Host σ ω ξ) (apart : String → Bool) (it : Datum ω) (target : Node) (body orelse : List Node)
    (s : Store σ ω) (r : Ending ω ξ) (t : Store σ ω) : Prop :=
  (∃ q u, Iterates H apart it target body s.user q true u ∧ Run H apart (.block orelse) ⟨u, s.apart⟩ r t) ∨
  (Iterates H apart it target body s.user r false t.user ∧ t.apart = s.apart)

theorem turns_turned (view : stmtView n = .forLoop target iter body orelse)
    (named : (nameOf? target).filter apart = none) (blind : Blind H apart (.block body))
    (run : Run H apart (.turns it n) s r t) : Turned H apart it target body orelse s r t := by
  refine turns_induct (motive := Turned H apart it target body orelse) view
    ?exhausted ?interrupted ?unbound ?again ?left run
  case exhausted => exact fun last stop after => .inl ⟨_, _, .exhausted last stop, after⟩
  case interrupted => exact fun last other => .inr ⟨.interrupted last other, rfl⟩
  case unbound =>
    intro s u d x t item failed
    obtain ⟨w, host, rfl⟩ := (bind_other named).mp failed
    exact .inr ⟨.unbound item host, rfl⟩
  case again =>
    intro s u d w q z r t item bound turn goesOn rest
    obtain ⟨w, host, rfl⟩ := (bind_other named).mp bound
    obtain ⟨does, same⟩ := blind.run.mp turn
    rw [Turned, same] at rest
    rcases rest with ⟨p, u, turns, after⟩ | ⟨turns, kept⟩
    · exact .inl ⟨p, u, .again item host does goesOn turns, after⟩
    · exact .inr ⟨.again item host does goesOn turns, kept⟩
  case left =>
    intro s u d w q t item bound turn leaves
    obtain ⟨w, host, rfl⟩ := (bind_other named).mp bound
    obtain ⟨does, same⟩ := blind.run.mp turn
    exact .inr ⟨.left item host does leaves, same⟩

-- The turns can be replayed with any values of the names that are set apart.
theorem Iterates.turns {q : Ending ω ξ} {done : Bool} (view : stmtView n = .forLoop target iter body orelse)
    (named : (nameOf? target).filter apart = none) (turns : Iterates H apart it target body u q done v)
    {other : String → Option (Datum ω)} (completed : done = true → Run H apart (.block orelse) ⟨v, other⟩ r t)
    (cut : done = false → r = q ∧ t = ⟨v, other⟩) : Run H apart (.turns it n) ⟨u, other⟩ r t := by
  induction turns with
  | exhausted last stop => exact .exhausted view last stop (completed rfl)
  | interrupted last other =>
    obtain ⟨rfl, rfl⟩ := cut rfl
    exact .interrupted view last other
  | unbound item failed =>
    obtain ⟨rfl, rfl⟩ := cut rfl
    exact .unbound view item (.other named failed)
  | again item bound turn goesOn rest ih =>
    exact .again view item (.other named bound) (turn _) goesOn (ih completed cut)
  | left item bound turn leaves =>
    obtain ⟨rfl, rfl⟩ := cut rfl
    exact .left view item (.other named bound) (turn _) leaves

theorem turns_exact (view : stmtView n = .forLoop target iter body orelse)
    (named : (nameOf? target).filter apart = none) (blind : Blind H apart (.block body)) :
    Run H apart (.turns it n) s r t ↔ Turned H apart it target body orelse s r t := by
  constructor
  · exact turns_turned view named blind
  · obtain ⟨u, other⟩ := s
    obtain ⟨v, after⟩ := t
    intro either
    rcases either with ⟨q, w, turns, completed⟩ | ⟨turns, rfl⟩
    · exact turns.turns view named (fun _ => completed) nofun
    · exact turns.turns view named nofun fun _ => ⟨rfl, rfl⟩

theorem turns_finish (view : stmtView n = .forLoop target iter body orelse)
    (unseen : Unseen H apart target iter body orelse) :
    (∃ t, Run H apart (.turns it n) s r t ∧ t.user = v) ↔
      Finishes H apart it target body orelse s.user r v := by
  simp only [turns_exact view unseen.target unseen.body, Turned, unseen.orelse.run]
  constructor
  · intro shape
    rcases shape with ⟨t, ⟨q, u, turns, does, -⟩ | ⟨turns, -⟩, rfl⟩
    · exact .inl ⟨q, u, turns, does⟩
    · exact .inr turns
  · intro either
    rcases either with ⟨q, u, turns, does⟩ | turns
    · exact ⟨⟨v, s.apart⟩, .inl ⟨q, u, turns, does, rfl⟩, rfl⟩
    · exact ⟨⟨v, s.apart⟩, .inr ⟨turns, rfl⟩, rfl⟩

theorem forLoop_loops (view : stmtView n = .forLoop target iter body orelse)
    (unseen : Unseen H apart target iter body orelse) :
    (∃ t, Run H apart (.stmt n) s r t ∧ t.user = v) ↔ Loops H apart target body iter orelse s.user r v := by
  rw [Loops]
  constructor
  · intro shape
    obtain ⟨t, run, rfl⟩ := shape
    rw [run_stmt, view] at run
    rcases run with ⟨d, w, it, u, first, started, turns⟩ | ⟨d, w, x, u, first, refused, rfl, rfl⟩ |
      ⟨x, failed, rfl⟩
    · have finished := (turns_finish view unseen).mp ⟨t, turns, rfl⟩
      exact .inl ⟨d, w.user, it, u, (unseen.iter.eval.mp first).1, started, finished⟩
    · exact .inr (.inl ⟨d, w.user, x, (unseen.iter.eval.mp first).1, refused, rfl⟩)
    · exact .inr (.inr ⟨x, (unseen.iter.eval.mp failed).1, rfl⟩)
  · intro either
    rcases either with ⟨d, w, it, z, first, started, finished⟩ | ⟨d, w, x, first, refused, rfl⟩ | ⟨x, failed, rfl⟩
    · obtain ⟨t, turns, same⟩ := (turns_finish (s := ⟨z, s.apart⟩) view unseen).mpr finished
      exact ⟨t, .forLoop view (first s.apart) started turns, same⟩
    · exact ⟨⟨v, s.apart⟩, .forRefused (t := ⟨w, s.apart⟩) view (first s.apart) refused, rfl⟩
    · exact ⟨⟨v, s.apart⟩, .forFailed view (failed s.apart), rfl⟩

end Source

end TreeLowering.Meaning
