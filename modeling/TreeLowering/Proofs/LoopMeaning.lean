import TreeLowering.Proofs.Pipeline
import TreeLowering.Proofs.ClearCode
import TreeLowering.Proofs.LoopTurns

namespace TreeLowering

namespace Rule

def LoopNames.hides (names : LoopNames) (id : String) : Bool :=
  id == names.iterator || id == names.item || some id == names.exhausted

structure LoopNames.Distinct (names : LoopNames) : Prop where
  item : names.iterator ≠ names.item
  exhausted : ∀ flag, names.exhausted = some flag → flag ≠ names.iterator ∧ flag ≠ names.item

theorem LoopNames.hides_iterator (names : LoopNames) : names.hides names.iterator = true := by simp [hides]

theorem LoopNames.hides_item (names : LoopNames) : names.hides names.item = true := by simp [hides]

theorem LoopNames.hides_exhausted {names : LoopNames} {flag : String} (drawn : names.exhausted = some flag) :
    names.hides flag = true := by simp [hides, drawn]

theorem Loop.fresh_apart {hint other : String} {s t : NameSupply} (i : Nat) (first : i < hint.toList.length)
    (second : i < other.toList.length) (differ : hint.toList[i] ≠ other.toList[i]) :
    (s.fresh hint).1 ≠ (t.fresh other).1 := by
  intro same
  have chars := congrArg (fun name : String => name.toList[i]?) same
  simp only [NameSupply.fresh, String.toList_append, List.append_assoc] at chars
  rw [List.getElem?_append_left first, List.getElem?_append_left second, List.getElem?_eq_getElem first,
    List.getElem?_eq_getElem second] at chars
  exact differ (Option.some.inj chars)

theorem Loop.drawn_distinct (orelse : List Value) (s : NameSupply) : (Loop.drawn orelse s).1.Distinct := by
  unfold Loop.drawn
  have item : ∀ {s t : NameSupply}, (s.fresh "__iter").1 ≠ (t.fresh "__item").1 :=
    Loop.fresh_apart 5 (by decide) (by decide) (by decide)
  cases orelse with
  | nil => exact ⟨item, nofun⟩
  | cons v rest =>
    refine ⟨item, ?_⟩
    intro flag same
    cases same
    exact ⟨Loop.fresh_apart 2 (by decide) (by decide) (by decide),
      Loop.fresh_apart 2 (by decide) (by decide) (by decide)⟩

end Rule

namespace Meaning

open Lowered (load store truth assign call whileTrue ifThen tryExcept advance)

variable {σ ω ξ : Type} {H : Host σ ω ξ} {apart : String → Bool}

section Views

variable {id func exception : String} {b : Bool} {arg target value test : Node} {body orelse : List Value}
  {tried handled : List Node}

theorem nodes_ofNodes (ns : List Node) : (ns.map Value.node).filterMap Value.node? = ns := by
  rw [List.filterMap_map]
  exact List.filterMap_some

theorem truth_view : exprView apart (truth b) = .truth b := rfl

theorem store_named (hidden : apart id = true) : (nameOf? (store id)).filter apart = some id := by
  change (some id).filter apart = _
  rw [Option.filter_some, if_pos hidden]

theorem load_view (hidden : apart id = true) : exprView apart (load id) = .apart id := by
  have kind : (load id).kind = "Name" := rfl
  have named : (nameOf? (load id)).filter apart = some id := store_named hidden
  simp [exprView, kind, named]

theorem load_other (seen : (nameOf? (load id)).filter apart = none) : exprView apart (load id) = .other := by
  have kind : (load id).kind = "Name" := rfl
  simp [exprView, kind, seen]

theorem call_view {f : Primitive} (known : primitive? func = some f) :
    exprView apart (call func [arg]) = .primitive f arg := by
  have kind : (call func [arg]).kind = "Call" := rfl
  have called : ((call func [arg]).nodeAt? "func").bind nameOf? = some func := rfl
  have args : nodesAt (call func [arg]) "args" = [arg] := rfl
  have keywords : nodesAt (call func [arg]) "keywords" = [] := rfl
  simp [exprView, kind, called, args, keywords, known]

theorem assign_view : stmtView (assign target value) = .assign [target] value := rfl

theorem whileTrue_view : stmtView (whileTrue body) = .whileLoop (truth true) (body.filterMap Value.node?) [] := rfl

theorem ifThen_view : stmtView (ifThen test body orelse) =
    .ifThen test (body.filterMap Value.node?) (orelse.filterMap Value.node?) := rfl

theorem leave_view : stmtView (.empty Core.leave) = .leave := rfl

theorem tryExcept_view : stmtView (tryExcept tried "StopIteration" handled) = .guarded tried handled := by
  change StmtView.guarded ((tried.map Value.node).filterMap Value.node?)
    ((handled.map Value.node).filterMap Value.node?) = _
  rw [nodes_ofNodes, nodes_ofNodes]

end Views

section Assignments

variable {id : String} {b : Bool} {target arg value : Node} {f : Primitive} {s t : Store σ ω} {r : Ending ω ξ}

theorem assign_truth (hidden : apart id = true) :
    Run H apart (.stmt (assign (store id) (truth b))) s r t ↔ r = .normal ∧ t = s.put id (.truth b) := by
  rw [run_assign assign_view]
  constructor
  · intro either
    rcases either with ⟨v, w, p, first, bound, rfl⟩ | ⟨x, failed, -⟩
    · obtain ⟨same, rfl⟩ := (eval_truth truth_view).mp first
      cases same
      obtain ⟨rfl, rfl⟩ := (bind_apart (store_named hidden)).mp bound
      exact ⟨rfl, rfl⟩
    · cases ((eval_truth truth_view).mp failed).1
  · intro shape
    obtain ⟨rfl, rfl⟩ := shape
    exact .inl ⟨_, s, _, .truth truth_view, .apart (store_named hidden), rfl⟩

theorem assign_call (hidden : apart id = true) (view : exprView apart value = .primitive f arg) :
    Run H apart (.stmt (assign (store id) value)) s r t ↔
      (∃ d w, Eval H apart arg s (.ok d) w ∧
        ((∃ v u, H.call f d w.user (.ok v) u ∧ r = .normal ∧ t = Store.put ⟨u, w.apart⟩ id v) ∨
        ∃ x u, H.call f d w.user (.error x) u ∧ r = .raised x ∧ t = ⟨u, w.apart⟩)) ∨
      ∃ x, Eval H apart arg s (.error x) t ∧ r = .raised x := by
  rw [run_assign assign_view]
  simp only [eval_primitive view, bind_apart (store_named hidden)]
  constructor
  · intro either
    rcases either with ⟨v, w, p, ⟨d, z, u, first, call, rfl⟩ | ⟨x, -, same⟩, ⟨rfl, rfl⟩, rfl⟩ |
      ⟨x, ⟨d, z, u, first, call, rfl⟩ | ⟨x, failed, same⟩, rfl⟩
    · exact .inl ⟨d, z, first, .inl ⟨v, u, call, rfl, rfl⟩⟩
    · cases same
    · exact .inl ⟨d, z, first, .inr ⟨x, u, call, rfl, rfl⟩⟩
    · cases same
      exact .inr ⟨_, failed, rfl⟩
  · intro either
    rcases either with ⟨d, w, first, ⟨v, u, call, rfl, rfl⟩ | ⟨x, u, call, rfl, rfl⟩⟩ | ⟨x, failed, rfl⟩
    · exact .inl ⟨v, _, _, .inl ⟨d, w, u, first, call, rfl⟩, ⟨rfl, rfl⟩, rfl⟩
    · exact .inr ⟨x, .inl ⟨d, w, u, first, call, rfl⟩, rfl⟩
    · exact .inr ⟨x, .inr ⟨x, failed, rfl⟩, rfl⟩

theorem assign_held {d : Datum ω} (hidden : apart id = true) (held : s.apart id = some d) :
    Run H apart (.stmt (assign target (load id))) s r t ↔
      ∃ p, Bind H apart target d s p t ∧ r = .ofResult p := by
  rw [run_assign assign_view]
  simp only [eval_held (load_view hidden) held]
  constructor
  · intro either
    rcases either with ⟨v, w, p, ⟨same, rfl⟩, bound, rfl⟩ | ⟨x, ⟨same, -⟩, -⟩
    · cases same
      exact ⟨p, bound, rfl⟩
    · cases same
  · intro shape
    obtain ⟨p, bound, rfl⟩ := shape
    exact .inl ⟨d, s, p, ⟨rfl, rfl⟩, bound, rfl⟩

end Assignments

def Store.signal (s : Store σ ω) (names : Rule.LoopNames) (b : Bool) : Store σ ω :=
  match names.exhausted with
  | none => s
  | some flag => s.put flag (.truth b)

-- A store in which a lowered loop has its iterator, and its flag says whether the iterator ended.
structure Ready (names : Rule.LoopNames) (it : Datum ω) (done : Bool) (s : Store σ ω) : Prop where
  iterator : s.apart names.iterator = some it
  exhausted : ∀ flag, names.exhausted = some flag → s.apart flag = some (.truth done)

section Stores

variable {names : Rule.LoopNames} {it d : Datum ω} {done b : Bool} {s : Store σ ω} {u : σ} {name : String}

@[simp] theorem put_same : (s.put name d).apart name = some d := if_pos rfl

theorem put_other {other : String} (differ : other ≠ name) : (s.put name d).apart other = s.apart other :=
  if_neg differ

@[simp] theorem signal_user : (s.signal names b).user = s.user := by
  unfold Store.signal
  cases names.exhausted <;> rfl

theorem signal_held {flag : String} (drawn : names.exhausted = some flag) :
    (s.signal names b).apart flag = some (.truth b) := by
  rw [Store.signal, drawn]
  exact put_same

theorem signal_other {other : String} (differ : ∀ flag, names.exhausted = some flag → flag ≠ other) :
    (s.signal names b).apart other = s.apart other := by
  unfold Store.signal
  cases drawn : names.exhausted with
  | none => rfl
  | some flag => exact put_other (differ flag drawn).symm

theorem Ready.kept {t : Store σ ω} (ready : Ready names it done s) (same : t.apart = s.apart) :
    Ready names it done t := by
  refine ⟨?_, fun flag drawn => ?_⟩
  · rw [same]
    exact ready.iterator
  · rw [same]
    exact ready.exhausted flag drawn

theorem Ready.item (ready : Ready names it done s) (distinct : names.Distinct) :
    Ready names it done (s.put names.item d) :=
  ⟨(put_other distinct.item).trans ready.iterator,
    fun flag drawn => (put_other (distinct.exhausted flag drawn).2).trans (ready.exhausted flag drawn)⟩

theorem Ready.signal (ready : Ready names it done s) (distinct : names.Distinct) :
    Ready names it b (s.signal names b) :=
  ⟨(signal_other fun flag drawn => (distinct.exhausted flag drawn).1).trans ready.iterator,
    fun _ drawn => signal_held drawn⟩

theorem started_ready (distinct : names.Distinct) :
    Ready names it b (Store.put ⟨u, (s.signal names b).apart⟩ names.iterator it) :=
  ⟨put_same, fun flag drawn => (put_other (distinct.exhausted flag drawn).1).trans (signal_held drawn)⟩

end Stores

section Emitted

variable {names : Rule.LoopNames} {loop : Rule.Loop} {it : Datum ω} {rest : List Node} {r : Ending ω ξ}
  {s t : Store σ ω} {u v : σ}

theorem flag_passed {b : Bool} :
    Run H names.hides (.block (Lowered.flag names b ++ rest)) s r t ↔
      Run H names.hides (.block rest) (s.signal names b) r t := by
  unfold Lowered.flag Store.signal
  cases drawn : names.exhausted with
  | none => exact Iff.rfl
  | some flag => exact run_passed (assign_truth (Rule.LoopNames.hides_exhausted drawn))

-- The end of the iterator raises the flag and leaves the loop; other exceptions of `next` pass.
theorem run_advance (ready : Ready names it false s) :
    Run H names.hides (.stmt (advance names)) s r t ↔
      (∃ d u, H.call .next it s.user (.ok d) u ∧ r = .normal ∧ t = Store.put ⟨u, s.apart⟩ names.item d) ∨
      (∃ x u, H.call .next it s.user (.error x) u ∧ H.isStop x ∧ r = .broke ∧
        t = Store.signal ⟨u, s.apart⟩ names true) ∨
      ∃ x u, H.call .next it s.user (.error x) u ∧ ¬ H.isStop x ∧ r = .raised x ∧ t = ⟨u, s.apart⟩ := by
  have fetched : ∀ {r t}, Run H names.hides
      (.block [assign (store names.item) (call "next" [load names.iterator])]) s r t ↔
        (∃ d u, H.call .next it s.user (.ok d) u ∧ r = .normal ∧ t = Store.put ⟨u, s.apart⟩ names.item d) ∨
        ∃ x u, H.call .next it s.user (.error x) u ∧ r = .raised x ∧ t = ⟨u, s.apart⟩ := by
    intro r t
    rw [run_one, assign_call names.hides_item (call_view (f := .next) rfl)]
    simp only [eval_held (load_view names.hides_iterator) ready.iterator]
    constructor
    · intro either
      rcases either with ⟨d, w, ⟨same, rfl⟩, outcome⟩ | ⟨x, ⟨same, -⟩, -⟩
      · cases same
        exact outcome
      · cases same
    · exact fun outcome => .inl ⟨it, s, ⟨rfl, rfl⟩, outcome⟩
  have handled : ∀ {s r t}, Run H names.hides
      (.block (Lowered.flag names true ++ [.empty Core.leave])) s r t ↔
        r = .broke ∧ t = s.signal names true := by
    intro s r t
    rw [flag_passed, run_one, run_stmt, leave_view]
    exact Iff.rfl
  rw [run_stmt, show stmtView (advance names) = _ from tryExcept_view]
  constructor
  · intro either
    rcases either with ⟨x, w, ran, stop, handling⟩ | ⟨ran, uncaught⟩
    · obtain ⟨rfl, rfl⟩ := handled.mp handling
      rcases fetched.mp ran with ⟨d, u, -, same, -⟩ | ⟨x, u, last, same, rfl⟩
      · cases same
      · cases same
        exact .inr (.inl ⟨_, u, last, stop, rfl, rfl⟩)
    · rcases fetched.mp ran with item | ⟨x, u, last, rfl, rfl⟩
      · exact .inl item
      · exact .inr (.inr ⟨x, u, last, uncaught x rfl, rfl, rfl⟩)
  · intro either
    rcases either with ⟨d, u, item, rfl, rfl⟩ | ⟨x, u, last, stop, rfl, rfl⟩ | ⟨x, u, last, other, rfl, rfl⟩
    · exact .inr ⟨fetched.mpr (.inl ⟨d, u, item, rfl, rfl⟩), nofun⟩
    · exact .inl ⟨x, _, fetched.mpr (.inr ⟨x, u, last, rfl, rfl⟩), stop, handled.mpr ⟨rfl, rfl⟩⟩
    · refine .inr ⟨fetched.mpr (.inr ⟨x, u, last, rfl, rfl⟩), ?_⟩
      intro y same
      cases same
      exact other

theorem run_bound {target : Node} {b : List Node} {d : Datum ω}
    (named : (nameOf? target).filter names.hides = none) (held : s.apart names.item = some d) :
    Run H names.hides (.block (assign target (load names.item) :: b)) s r t ↔
      (∃ x w, H.bind target d s.user (.error x) w ∧ r = .raised x ∧ t = ⟨w, s.apart⟩) ∨
      ∃ w, H.bind target d s.user (.ok ()) w ∧ Run H names.hides (.block b) ⟨w, s.apart⟩ r t := by
  rw [run_cons]
  simp only [assign_held names.hides_item held, bind_other named]
  constructor
  · intro either
    rcases either with ⟨z, ⟨p, ⟨w, host, rfl⟩, same⟩, others⟩ | ⟨⟨p, ⟨w, host, rfl⟩, rfl⟩, ended⟩
    · cases p with
      | ok => exact .inr ⟨w, host, others⟩
      | error x => cases same
    · cases p with
      | ok => exact absurd rfl ended
      | error x => exact .inl ⟨x, w, host, rfl, rfl⟩
  · intro either
    rcases either with ⟨x, w, host, rfl, rfl⟩ | ⟨w, host, inside⟩
    · exact .inr ⟨⟨.error x, ⟨w, host, rfl⟩, rfl⟩, Ending.raised_ended⟩
    · exact .inl ⟨⟨w, s.apart⟩, ⟨.ok (), ⟨w, host, rfl⟩, rfl⟩, inside⟩

theorem run_turn {target : Node} {body : List Node} (named : (nameOf? target).filter names.hides = none)
    (ready : Ready names it false s) :
    Run H names.hides (.block (advance names :: assign target (load names.item) :: body)) s r t ↔
      (∃ x u, H.call .next it s.user (.error x) u ∧ H.isStop x ∧ r = .broke ∧
        t = Store.signal ⟨u, s.apart⟩ names true) ∨
      (∃ x u, H.call .next it s.user (.error x) u ∧ ¬ H.isStop x ∧ r = .raised x ∧ t = ⟨u, s.apart⟩) ∨
      ∃ d u, H.call .next it s.user (.ok d) u ∧
        ((∃ x w, H.bind target d u (.error x) w ∧ r = .raised x ∧ t = ⟨w, (s.put names.item d).apart⟩) ∨
        ∃ w, H.bind target d u (.ok ()) w ∧
          Run H names.hides (.block body) ⟨w, (s.put names.item d).apart⟩ r t) := by
  have bound := fun {d : Datum ω} {u : σ} {r t} =>
    run_bound (H := H) (s := Store.put ⟨u, s.apart⟩ names.item d) (r := r) (t := t) (b := body) named put_same
  rw [run_cons]
  simp only [run_advance ready]
  constructor
  · intro either
    rcases either with ⟨z, advanced, others⟩ | ⟨stopped, ended⟩
    · rcases advanced with ⟨d, u, item, -, rfl⟩ | ⟨x, u, last, stop, same, -⟩ | ⟨x, u, last, other, same, -⟩
      · exact .inr (.inr ⟨d, u, item, bound.mp others⟩)
      · cases same
      · cases same
    · rcases stopped with ⟨d, u, item, same, -⟩ | ⟨x, u, last, stop, rfl, rfl⟩ | ⟨x, u, last, other, rfl, rfl⟩
      · exact absurd same ended
      · exact .inl ⟨x, u, last, stop, rfl, rfl⟩
      · exact .inr (.inl ⟨x, u, last, other, rfl, rfl⟩)
  · intro either
    rcases either with ⟨x, u, last, stop, rfl, rfl⟩ | ⟨x, u, last, other, rfl, rfl⟩ | ⟨d, u, item, inside⟩
    · exact .inr ⟨.inr (.inl ⟨x, u, last, stop, rfl, rfl⟩), nofun⟩
    · exact .inr ⟨.inr (.inr ⟨x, u, last, other, rfl, rfl⟩), Ending.raised_ended⟩
    · exact .inl ⟨_, .inl ⟨d, u, item, trivial, rfl⟩, bound.mpr inside⟩

section Forever

variable (distinct : names.Distinct) (named : (nameOf? loop.target).filter names.hides = none)

include distinct named

-- The emitted `while` loop takes the turns of the loop, and its flag is up exactly after the last one.
theorem forever_iterates (blind : Blind H names.hides (.block (loop.body.filterMap Value.node?)))
    (ready : Ready names it false s)
    (run : Run H names.hides (.stmt (whileTrue (Lowered.turn names loop))) s r t) :
    ∃ done, Iterates H names.hides it loop.target (loop.body.filterMap Value.node?) s.user r done t.user ∧
      Ready names it done t := by
  revert ready
  refine forever_induct (motive := fun s r t => Ready names it false s → ∃ done,
    Iterates H names.hides it loop.target (loop.body.filterMap Value.node?) s.user r done t.user ∧
      Ready names it done t) whileTrue_view (test_truth (eval_truth truth_view)) ?again ?left run
  case again =>
    intro s z t q r turn goesOn rest ready
    rcases (run_turn named ready).mp turn with ⟨x, u, last, stop, rfl, -⟩ |
      ⟨x, u, last, other, rfl, -⟩ | ⟨d, u, item, ⟨x, w, host, rfl, -⟩ | ⟨w, host, inside⟩⟩
    · cases goesOn
    · cases goesOn
    · cases goesOn
    · obtain ⟨does, same⟩ := blind.run.mp inside
      obtain ⟨done, turns, after⟩ := rest ((ready.item distinct).kept same)
      exact ⟨done, .again item host does goesOn turns, after⟩
  case left =>
    intro s t q turn leaves ready
    rcases (run_turn named ready).mp turn with ⟨x, u, last, stop, rfl, rfl⟩ |
      ⟨x, u, last, other, rfl, rfl⟩ | ⟨d, u, item, ⟨x, w, host, rfl, rfl⟩ | ⟨w, host, inside⟩⟩
    · refine ⟨true, ?_, (ready.kept (t := ⟨u, s.apart⟩) rfl).signal distinct⟩
      rw [signal_user]
      exact .exhausted last stop
    · exact ⟨false, .interrupted last other, ready.kept rfl⟩
    · exact ⟨false, .unbound item host, (ready.item distinct).kept rfl⟩
    · obtain ⟨does, same⟩ := blind.run.mp inside
      exact ⟨false, .left item host does leaves, (ready.item distinct).kept same⟩

theorem Iterates.forever {done : Bool}
    (turns : Iterates H names.hides it loop.target (loop.body.filterMap Value.node?) u r done v)
    (ready : Ready names it false s) (same : s.user = u) :
    ∃ t, Run H names.hides (.stmt (whileTrue (Lowered.turn names loop))) s r t ∧ t.user = v ∧
      Ready names it done t := by
  have always : ∀ {s : Store σ ω}, Test H names.hides (truth true) s (.ok true) s :=
    (test_truth (eval_truth truth_view)).mpr ⟨rfl, rfl⟩
  induction turns generalizing s with
  | @exhausted u v x last stop =>
    subst same
    refine ⟨Store.signal ⟨v, s.apart⟩ names true, .whileLeft (q := .broke) whileTrue_view always ?_ rfl,
      signal_user, (ready.kept (t := ⟨v, s.apart⟩) rfl).signal distinct⟩
    exact (run_turn named ready).mpr (.inl ⟨x, v, last, stop, rfl, rfl⟩)
  | @interrupted u v x last other =>
    subst same
    refine ⟨⟨v, s.apart⟩, .whileLeft (q := .raised x) whileTrue_view always ?_ rfl, rfl, ready.kept rfl⟩
    exact (run_turn named ready).mpr (.inr (.inl ⟨x, v, last, other, rfl, rfl⟩))
  | @unbound u v w d x item failed =>
    subst same
    refine ⟨⟨w, (s.put names.item d).apart⟩, .whileLeft (q := .raised x) whileTrue_view always ?_ rfl, rfl,
      (ready.item distinct).kept rfl⟩
    exact (run_turn named ready).mpr (.inr (.inr ⟨d, v, item, .inl ⟨x, w, failed, rfl, rfl⟩⟩))
  | @again u v w y z d q r done item bound turn goesOn rest ih =>
    subst same
    obtain ⟨t, after, result⟩ := ih (s := ⟨y, (s.put names.item d).apart⟩) ((ready.item distinct).kept rfl) rfl
    refine ⟨t, .whileAgain whileTrue_view always ?_ goesOn after, result⟩
    exact (run_turn named ready).mpr (.inr (.inr ⟨d, v, item, .inr ⟨w, bound, turn _⟩⟩))
  | @left u v w z d q item bound turn leaves =>
    subst same
    refine ⟨⟨z, (s.put names.item d).apart⟩, .whileLeft whileTrue_view always ?_ leaves, rfl,
      (ready.item distinct).kept rfl⟩
    exact (run_turn named ready).mpr (.inr (.inr ⟨d, v, item, .inr ⟨w, bound, turn _⟩⟩))

end Forever

-- A loop without a flag has no `else`; a flag that is down skips it.
theorem run_after {done : Bool} (flagless : names.exhausted = none → loop.orelse = [])
    (ready : Ready names it done s) :
    Run H names.hides
      (.block (names.exhausted.map fun flag => ifThen (load flag) loop.orelse []).toList) s r t ↔
        if done then Run H names.hides (.block (loop.orelse.filterMap Value.node?)) s r t
        else r = .normal ∧ t = s := by
  cases drawn : names.exhausted with
  | none =>
    rw [flagless drawn, Option.map_none, Option.toList_none, List.filterMap_nil, run_nil, ite_self]
  | some flag =>
    have tested : ∀ {p w}, Test H names.hides (load flag) s p w ↔ p = .ok done ∧ w = s :=
      test_truth (eval_held (load_view (Rule.LoopNames.hides_exhausted drawn)) (ready.exhausted flag drawn))
    rw [Option.map_some, Option.toList_some, run_one, run_stmt, ifThen_view]
    constructor
    · intro either
      rcases either with ⟨b, w, test, taken⟩ | ⟨x, failed, -⟩
      · obtain ⟨same, rfl⟩ := tested.mp test
        cases same
        cases done with
        | true => exact taken
        | false => exact run_nil.mp taken
      · cases (tested.mp failed).1
    · intro taken
      refine .inl ⟨done, s, tested.mpr ⟨rfl, rfl⟩, ?_⟩
      cases done with
      | true => exact taken
      | false => exact run_nil.mpr taken

end Emitted

section Lowered

variable {names : Rule.LoopNames} {loop : Rule.Loop} {it : Datum ω} {r : Ending ω ξ} {s : Store σ ω} {v : σ}
  (distinct : names.Distinct) (flagless : names.exhausted = none → loop.orelse = [])
  (unseen : Unseen H names.hides loop.target loop.iter (loop.body.filterMap Value.node?)
    (loop.orelse.filterMap Value.node?))

include distinct flagless unseen

theorem forever_finish (ready : Ready names it false s) :
    (∃ t, Run H names.hides (.block (whileTrue (Lowered.turn names loop) ::
      (names.exhausted.map fun flag => ifThen (load flag) loop.orelse []).toList)) s r t ∧ t.user = v) ↔
        Finishes H names.hides it loop.target (loop.body.filterMap Value.node?)
          (loop.orelse.filterMap Value.node?) s.user r v := by
  constructor
  · intro shape
    obtain ⟨t, run, rfl⟩ := shape
    rcases run_cons.mp run with ⟨w, turns, after⟩ | ⟨turns, ended⟩
    · obtain ⟨done, turns, after_ready⟩ := forever_iterates distinct unseen.target unseen.body ready turns
      rw [run_after flagless after_ready] at after
      cases done with
      | true => exact .inl ⟨_, _, turns, (unseen.orelse.run.mp after).1⟩
      | false =>
        obtain ⟨rfl, rfl⟩ := after
        exact .inr turns
    · obtain ⟨done, turns, -⟩ := forever_iterates distinct unseen.target unseen.body ready turns
      cases done with
      | true => exact absurd (turns.normal rfl) ended
      | false => exact .inr turns
  · intro either
    rcases either with ⟨q, w, turns, does⟩ | turns
    · cases turns.normal rfl
      obtain ⟨t, run, rfl, after_ready⟩ := turns.forever distinct unseen.target ready rfl
      exact ⟨⟨v, t.apart⟩, .next run ((run_after flagless after_ready).mpr (does _)), rfl⟩
    · obtain ⟨t, run, rfl, after_ready⟩ := turns.forever distinct unseen.target ready rfl
      refine ⟨t, ?_, rfl⟩
      by_cases ended : r = .normal
      · subst ended
        exact .next run ((run_after flagless after_ready).mpr ⟨rfl, rfl⟩)
      · exact .stop run ended

theorem lowered_loops :
    (∃ t, Run H names.hides (.block (Lowered.loop names loop)) s r t ∧ t.user = v) ↔
      Loops H names.hides loop.target (loop.body.filterMap Value.node?) loop.iter
        (loop.orelse.filterMap Value.node?) s.user r v := by
  have view : exprView names.hides (call "iter" [loop.iter]) = .primitive .iter loop.iter := call_view rfl
  have started := fun {s r t} =>
    assign_call (H := H) (s := s) (r := r) (t := t) names.hides_iterator view
  simp only [Lowered.loop, List.append_assoc, flag_passed, List.cons_append, List.nil_append]
  have same : (s.signal names false).user = s.user := signal_user
  rw [Loops, ← same]
  constructor
  · intro shape
    obtain ⟨t, run, rfl⟩ := shape
    rcases run_cons.mp run with ⟨w, first, others⟩ | ⟨first, ended⟩
    · rcases started.mp first with
        ⟨d, z, value, ⟨it, u, call, -, rfl⟩ | ⟨x, u, call, raised, -⟩⟩ | ⟨x, failed, raised⟩
      · obtain ⟨yields, kept⟩ := unseen.iter.eval.mp value
        rw [kept] at others
        have finished := (forever_finish distinct flagless unseen (started_ready distinct)).mp ⟨t, others, rfl⟩
        exact .inl ⟨d, z.user, it, u, yields, call, finished⟩
      · cases raised
      · cases raised
    · rcases started.mp first with
        ⟨d, z, value, ⟨it, u, call, normal, -⟩ | ⟨x, u, call, rfl, rfl⟩⟩ | ⟨x, failed, rfl⟩
      · exact absurd normal ended
      · exact .inr (.inl ⟨d, z.user, x, (unseen.iter.eval.mp value).1, call, rfl⟩)
      · exact .inr (.inr ⟨x, (unseen.iter.eval.mp failed).1, rfl⟩)
  · intro either
    rcases either with ⟨d, w, it, z, first, call, finished⟩ | ⟨d, w, x, first, call, rfl⟩ | ⟨x, failed, rfl⟩
    · obtain ⟨t, others, rfl⟩ := (forever_finish distinct flagless unseen
        (s := Store.put ⟨z, (s.signal names false).apart⟩ names.iterator it) (started_ready distinct)).mpr finished
      exact ⟨t, .next (started.mpr (.inl ⟨d, ⟨w, _⟩, first _, .inl ⟨it, z, call, rfl, rfl⟩⟩)) others, rfl⟩
    · refine ⟨⟨v, (s.signal names false).apart⟩, .stop (started.mpr ?_) Ending.raised_ended, rfl⟩
      exact .inl ⟨d, ⟨w, _⟩, first _, .inr ⟨x, v, call, rfl, rfl⟩⟩
    · refine ⟨⟨v, (s.signal names false).apart⟩, .stop (started.mpr ?_) Ending.raised_ended, rfl⟩
      exact .inr ⟨x, failed _, rfl⟩

end Lowered

section Rule

open Rule (forLoop)
open Desugarer (scan scan_done)
open Rule.Loop (drawn drawNames drawNames_drawn)

variable {n target iter : Node}

theorem loop_view (kind : n.kind = "For") (targeted : n.nodeAt? "target" = some target)
    (iterated : n.nodeAt? "iter" = some iter) :
    stmtView n = .forLoop target iter (nodesAt n "body") (nodesAt n "orelse") := by
  simp [stmtView, kind, targeted, iterated]

theorem Clear.unseen {body orelse : List Node} (clear : Clear apart n)
    (view : stmtView n = .forLoop target iter body orelse) : Unseen H apart target iter body orelse := by
  obtain ⟨ofTarget, ofIter, ofBody, ofOrelse⟩ := clear.loop view
  exact ⟨ofTarget.self, ofIter.blindExpr, Code.Clear.blind (c := .block _) ofBody,
    Code.Clear.blind (c := .block _) ofOrelse⟩

-- The same runs, as far as the host sees them.
def Alike (H : Host σ ω ξ) (apart : String → Bool) (c d : Code ω) : Prop :=
  ∀ s r v, (∃ t, Run H apart c s r t ∧ t.user = v) ↔ ∃ t, Run H apart d s r t ∧ t.user = v

theorem rewrite_meaning {r : Registry} (lowers : r.Lowers) (typed : n.WellTyped r)
    (schema : n.schema = Core.forLoop) (targeted : n.nodeAt? "target" = some target)
    (iterated : n.nodeAt? "iter" = some iter) (supply : NameSupply) :
    ∃ statements names rest, (drawNames (n.itemsAt "orelse")).run supply = (.ok names, rest) ∧
      (forLoop.rewrite r n).run supply = (.ok (.ofNodes statements), rest) ∧
      ∀ {σ ω ξ : Type} (H : Host σ ω ξ),
        Unseen H names.hides target iter (nodesAt n "body") (nodesAt n "orelse") →
        Alike H names.hides (.stmt n) (.block statements) := by
  rcases Rule.forLoop_rewrite lowers typed schema supply with
    ⟨loop, -, ofTarget, ofIter, body, orelse, ran⟩ | ⟨field, member, missing, -⟩
  · cases ofTarget.symm.trans targeted
    cases ofIter.symm.trans iterated
    rw [nodesAt, nodesAt, body, orelse]
    refine ⟨_, (drawn loop.orelse supply).1, _, drawNames_drawn _ _, ran, fun {_ _ _} H unseen s r v => ?_⟩
    have view := loop_view (by rw [Node.kind, schema]; rfl) ofTarget ofIter
    rw [nodesAt, nodesAt, body, orelse] at view
    rw [forLoop_loops view unseen, lowered_loops (Rule.Loop.drawn_distinct _ _)
      (Rule.Loop.drawn_exhausted _ _).mp unseen]
  · have set : n.isSet field = true := by
      simp only [List.mem_cons, List.not_mem_nil, or_false] at member
      rcases member with rfl | rfl
      · exact Node.nodeAt_set targeted
      · exact Node.nodeAt_set iterated
    rw [set] at missing
    cases missing

-- A loop with a target and an iterable is lowered to statements that have the same runs, for every host
-- and for code that does not see the drawn names.
theorem forLoop_meaning (typed : n.WellTyped coreRegistry) (kind : n.kind = "For")
    (targeted : n.nodeAt? "target" = some target) (iterated : n.nodeAt? "iter" = some iter)
    (supply : NameSupply) :
    ∃ statements names rest, (drawNames (n.itemsAt "orelse")).run supply = (.ok names, rest) ∧
      (forLoop.rewrite coreRegistry n).run supply = (.ok (.ofNodes statements), rest) ∧
      ∀ {σ ω ξ : Type} (H : Host σ ω ξ),
        Unseen H names.hides target iter (nodesAt n "body") (nodesAt n "orelse") →
        Alike H names.hides (.stmt n) (.block statements) :=
  rewrite_meaning core_lowers typed ((core_kind (s := Core.forLoop) (by simp [Core.schemas]) typed).mp kind)
    targeted iterated supply

def reader : Host (List Nat) Unit Unit where
  isStop _ := True
  unbound _ := ()
  call
    | .iter, d, s, q, t => q = .ok d ∧ t = s
    | .next, _, s, q, t => (∃ item, s = item :: t ∧ q = .ok (.object ())) ∨ s = [] ∧ t = [] ∧ q = .error ()
  holds _ s p t := p = .ok true ∧ t = s
  eval _ s q t := q = .ok (.object ()) ∧ t = s
  bind _ _ s p t := p = .ok () ∧ t = s
  exec _ s r t := r = .normal ∧ t = s

theorem scan_clear : Clear (drawn (scan.itemsAt "orelse") .initial).1.hides scan := by
  unfold Clear
  decide

theorem scan_turns {apart : String → Bool} (clear : Clear apart scan) (items : List Nat)
    (other : String → Option (Datum Unit)) :
    Run reader apart (.turns (.object ()) scan) ⟨items, other⟩ .broke ⟨[], other⟩ := by
  have held : scan.nodeAt? "target" = some (store "x") := rfl
  have target := (clear.nodeAt held).self
  induction items with
  | nil => exact .exhausted rfl (.inr ⟨rfl, rfl, rfl⟩) trivial (run_one.mpr (.leave rfl))
  | cons item rest ih =>
    refine .again (q := .normal) rfl (.inl ⟨item, rfl, rfl⟩) (.other target ⟨rfl, rfl⟩) ?_ rfl ih
    exact run_one.mpr (.other rfl ⟨rfl, rfl⟩)

theorem scan_run {apart : String → Bool} (clear : Clear apart scan) (items : List Nat)
    (other : String → Option (Datum Unit)) :
    Run reader apart (.stmt scan) ⟨items, other⟩ .broke ⟨[], other⟩ := by
  have held : scan.nodeAt? "iter" = some (load "xs") := rfl
  have iter := load_other (clear.nodeAt held).self
  exact .forLoop (t := ⟨items, other⟩) rfl (.other iter ⟨rfl, rfl⟩) ⟨rfl, rfl⟩ (scan_turns clear items other)

theorem scan_lowered :
    ∃ statements names rest, (drawNames (scan.itemsAt "orelse")).run .initial = (.ok names, rest) ∧
      (forLoop.rewrite coreRegistry scan).run .initial = (.ok (.ofNodes statements), rest) ∧
      ∀ items other, ∃ t, Run reader names.hides (.block statements) ⟨items, other⟩ .broke t ∧ t.user = [] := by
  obtain ⟨statements, names, rest, named, ran, alike⟩ := forLoop_meaning scan_done.1.2 rfl rfl rfl .initial
  have same : names = (drawn (scan.itemsAt "orelse") .initial).1 := by
    cases (drawNames_drawn _ _).symm.trans named
    rfl
  have clear : Clear names.hides scan := by
    rw [same]
    exact scan_clear
  exact ⟨statements, names, rest, named, ran, fun items other =>
    (alike reader (clear.unseen rfl) _ _ _).mp ⟨_, scan_run clear items other, rfl⟩⟩

end Rule

end Meaning

end TreeLowering
