import TreeLowering.Proofs.Runs

namespace TreeLowering.Meaning

variable {σ ω ξ : Type} {H : Host σ ω ξ} {apart : String → Bool} {n child : Node} {name : String}

-- None of the names below a node is set apart.
def Clear (apart : String → Bool) (n : Node) : Prop := ∀ m ∈ n.visited, (nameOf? m).filter apart = none

def StmtView.parts : StmtView → List Node
  | .leave | .other => []
  | .assign targets value => value :: targets
  | .ifThen test body orelse | .whileLoop test body orelse => test :: (body ++ orelse)
  | .forLoop target iter body orelse => target :: iter :: (body ++ orelse)
  | .guarded body handler => body ++ handler

def Code.Clear (apart : String → Bool) : Code ω → Prop
  | .block b => ∀ n ∈ b, Meaning.Clear apart n
  | .stmt n | .turns _ n => Meaning.Clear apart n

theorem nodesAt_child (member : child ∈ nodesAt n name) : child ∈ n.children := by
  obtain ⟨v, inside, held⟩ := List.mem_filterMap.mp member
  cases v with
  | node c =>
    cases held
    exact Node.itemsAt_child inside
  | _ => cases held

namespace Clear

variable (clear : Clear apart n)

include clear

theorem self : (nameOf? n).filter apart = none := clear n n.self_visited

theorem below (below : child ∈ n.children) : Clear apart child :=
  fun m inside => clear m (Node.mem_visited.mpr (.inr ⟨child, below, inside⟩))

theorem nodeAt (found : n.nodeAt? name = some child) : Clear apart child := clear.below (Node.nodeAt_child found)

theorem nodesAt (member : child ∈ nodesAt n name) : Clear apart child := clear.below (nodesAt_child member)

theorem guarded : ∀ m ∈ (guardView n).parts, Clear apart m := by
  unfold guardView
  split
  next handler handlers _ _ =>
    have member : handler ∈ Meaning.nodesAt n "handlers" := by
      rw [handlers]
      exact List.mem_cons_self ..
    have caught : Clear apart handler := clear.nodesAt member
    split
    · intro m member
      rcases List.mem_append.mp member with tried | handled
      · exact clear.nodesAt tried
      · exact caught.nodesAt handled
    · exact nofun
  next => exact nofun

theorem parts : ∀ m ∈ (stmtView n).parts, Clear apart m := by
  have both : ∀ {test : Node} {first second : String}, Clear apart test →
      ∀ m ∈ test :: (Meaning.nodesAt n first ++ Meaning.nodesAt n second), Clear apart m := by
    intro test first second tested m member
    rcases List.mem_cons.mp member with rfl | inside
    · exact tested
    rcases List.mem_append.mp inside with inside | inside
    · exact clear.nodesAt inside
    · exact clear.nodesAt inside
  unfold stmtView
  split
  · exact nofun
  split
  · split
    next value found =>
      intro m member
      rcases List.mem_cons.mp member with rfl | inside
      · exact clear.nodeAt found
      · exact clear.nodesAt inside
    next => exact nofun
  split
  · split
    next test found => exact both (clear.nodeAt found)
    next => exact nofun
  split
  · split
    next test found => exact both (clear.nodeAt found)
    next => exact nofun
  split
  · split
    next target iter targeted iterated =>
      intro m member
      rcases List.mem_cons.mp member with rfl | inside
      · exact clear.nodeAt targeted
      · exact both (clear.nodeAt iterated) m inside
    next => exact nofun
  split
  · exact clear.guarded
  · exact nofun

theorem viewed {view : StmtView} (same : stmtView n = view) : ∀ m ∈ view.parts, Clear apart m :=
  same ▸ clear.parts

theorem tested {view : StmtView} {test : Node} {body orelse : List Node} (same : stmtView n = view)
    (shape : view.parts = test :: (body ++ orelse)) :
    Clear apart test ∧ (∀ m ∈ body, Clear apart m) ∧ ∀ m ∈ orelse, Clear apart m := by
  have parts := clear.viewed same
  rw [shape] at parts
  obtain ⟨isTest, blocks⟩ := List.forall_mem_cons.mp parts
  exact ⟨isTest, List.forall_mem_append.mp blocks⟩

theorem loop {target iter : Node} {body orelse : List Node}
    (view : stmtView n = .forLoop target iter body orelse) : Clear apart target ∧ Clear apart iter ∧
      (∀ m ∈ body, Clear apart m) ∧ ∀ m ∈ orelse, Clear apart m := by
  obtain ⟨isTarget, others⟩ := List.forall_mem_cons.mp (clear.viewed view)
  obtain ⟨isIter, blocks⟩ := List.forall_mem_cons.mp others
  exact ⟨isTarget, isIter, List.forall_mem_append.mp blocks⟩

theorem unnamed : exprView apart n ≠ .apart name := by
  intro view
  unfold exprView at view
  rw [clear.self] at view
  split at view
  · split at view <;> cases view
  split at view
  · split at view <;> cases view
  · cases view

theorem argument {f : Primitive} {arg : Node} (view : exprView apart n = .primitive f arg) : Clear apart arg := by
  unfold exprView at view
  split at view
  · split at view <;> cases view
  split at view
  · split at view
    next _ _ arguments _ =>
      cases view
      have member : arg ∈ Meaning.nodesAt n "args" := by
        rw [arguments]
        exact List.mem_cons_self ..
      exact clear.nodesAt member
    next => cases view
  · split at view <;> cases view

end Clear

section Parts

variable {e target : Node} {s t w : Store σ ω}

-- What is set apart is left as it is, and the same happens whatever it is.
def Untouched (happens : Store σ ω → Store σ ω → Prop) (s t : Store σ ω) : Prop :=
  t.apart = s.apart ∧ ∀ other, happens ⟨s.user, other⟩ ⟨t.user, other⟩

theorem Untouched.mono {first second : Store σ ω → Store σ ω → Prop} (one : Untouched first s t)
    (gives : ∀ {s t}, first s t → second s t) : Untouched second s t :=
  ⟨one.1, fun other => gives (one.2 other)⟩

theorem Untouched.trans {first second both : Store σ ω → Store σ ω → Prop} (one : Untouched first s w)
    (two : Untouched second w t) (joins : ∀ {s w t}, first s w → second w t → both s t) : Untouched both s t :=
  ⟨two.1.trans one.1, fun other => joins (one.2 other) (two.2 other)⟩

theorem Clear.eval {q : Except ξ (Datum ω)} (clear : Clear apart e) (value : Eval H apart e s q t) :
    Untouched (Eval H apart e · q ·) s t := by
  induction value with
  | truth view => exact ⟨rfl, fun _ => .truth view⟩
  | bound view | unbound view => exact absurd view clear.unnamed
  | called view first call ih =>
    obtain ⟨same, yields⟩ := ih (clear.argument view)
    exact ⟨same, fun other => .called view (yields other) call⟩
  | argument view failed ih => exact (ih (clear.argument view)).mono (.argument view)
  | other view host => exact ⟨rfl, fun _ => .other view host⟩

theorem Clear.test {p : Except ξ Bool} (clear : Clear apart e) (tested : Test H apart e s p t) :
    Untouched (Test H apart e · p ·) s t := by
  cases tested with
  | truth value => exact (clear.eval value).mono .truth
  | object value host =>
    obtain ⟨same, yields⟩ := clear.eval value
    exact ⟨same, fun other => .object (yields other) host⟩
  | failed value => exact (clear.eval value).mono .failed

theorem Clear.bind {d : Datum ω} {p : Except ξ Unit} (clear : Clear apart target)
    (bound : Bind H apart target d s p t) : Untouched (Bind H apart target d · p ·) s t := by
  obtain ⟨u, host, rfl⟩ := (bind_other clear.self).mp bound
  exact ⟨rfl, fun _ => .other clear.self host⟩

theorem Clear.bindAll {targets : List Node} {d : Datum ω} {p : Except ξ Unit}
    (clear : ∀ target ∈ targets, Clear apart target) (bound : BindAll H apart d targets s p t) :
    Untouched (BindAll H apart d targets · p ·) s t := by
  induction bound with
  | nil => exact ⟨rfl, fun _ => .nil⟩
  | cons first others ih =>
    have one := (clear _ (List.mem_cons_self ..)).bind first
    exact one.trans (ih fun target member => clear target (List.mem_cons_of_mem _ member)) .cons
  | failed first => exact ((clear _ (List.mem_cons_self ..)).bind first).mono .failed

end Parts

section Statements

variable {targets body orelse handler : List Node} {test target iter value : Node} {s t w z : Store σ ω}
  {q r : Ending ω ξ} (clear : Clear apart n)

include clear

theorem Clear.assigns {v : Datum ω} {p : Except ξ Unit} (view : stmtView n = .assign targets value)
    (first : Eval H apart value s (.ok v) w) (bound : BindAll H apart v targets w p t) :
    Untouched (Run H apart (.stmt n) · (.ofResult p) ·) s t := by
  obtain ⟨isValue, areTargets⟩ := List.forall_mem_cons.mp (clear.viewed view)
  exact (isValue.eval first).trans (Clear.bindAll areTargets bound) (.assign view)

theorem Clear.branches {b : Bool} (view : stmtView n = .ifThen test body orelse)
    (tested : Test H apart test s (.ok b) w)
    (taken : (Code.block (ω := ω) (if b then body else orelse)).Clear apart →
      Untouched (Run H apart (.block (if b then body else orelse)) · r ·) w t) :
    Untouched (Run H apart (.stmt n) · r ·) s t := by
  obtain ⟨isTest, bodies, orelses⟩ := clear.tested view rfl
  have chosen : (Code.block (ω := ω) (if b then body else orelse)).Clear apart := by
    cases b
    · exact orelses
    · exact bodies
  exact (isTest.test tested).trans (taken chosen) (.branch view)

theorem Clear.handles {x : ξ} (view : stmtView n = .guarded body handler)
    (ran : (Code.block (ω := ω) body).Clear apart → Untouched (Run H apart (.block body) · (.raised x) ·) s w)
    (caught : H.isStop x)
    (handling : (Code.block (ω := ω) handler).Clear apart → Untouched (Run H apart (.block handler) · r ·) w t) :
    Untouched (Run H apart (.stmt n) · r ·) s t := by
  obtain ⟨bodies, handlers⟩ := List.forall_mem_append.mp (clear.viewed view)
  exact (ran bodies).trans (handling handlers) fun ran handling => .handled view ran caught handling

theorem Clear.repeats (view : stmtView n = .whileLoop test body orelse) (tested : Test H apart test s (.ok true) w)
    (turn : (Code.block (ω := ω) body).Clear apart → Untouched (Run H apart (.block body) · q ·) w z)
    (again : q.again = true) (rest : Untouched (Run H apart (.stmt n) · r ·) z t) :
    Untouched (Run H apart (.stmt n) · r ·) s t := by
  obtain ⟨isTest, bodies, -⟩ := clear.tested view rfl
  obtain ⟨same, tests⟩ := isTest.test tested
  obtain ⟨kept, does⟩ := turn bodies
  obtain ⟨sames, doesRest⟩ := rest
  exact ⟨sames.trans (kept.trans same),
    fun other => .whileAgain view (tests other) (does other) again (doesRest other)⟩

theorem Clear.leaves (view : stmtView n = .whileLoop test body orelse) (tested : Test H apart test s (.ok true) w)
    (turn : (Code.block (ω := ω) body).Clear apart → Untouched (Run H apart (.block body) · q ·) w t)
    (left : q.again = false) : Untouched (Run H apart (.stmt n) · q.leaving ·) s t := by
  obtain ⟨isTest, bodies, -⟩ := clear.tested view rfl
  exact (isTest.test tested).trans (turn bodies) fun tests does => .whileLeft view tests does left

theorem Clear.starts {v it : Datum ω} {u : σ} (view : stmtView n = .forLoop target iter body orelse)
    (first : Eval H apart iter s (.ok v) w) (started : H.call .iter v w.user (.ok it) u)
    (turns : Untouched (Run H apart (.turns it n) · r ·) ⟨u, w.apart⟩ t) :
    Untouched (Run H apart (.stmt n) · r ·) s t := by
  obtain ⟨-, isIter, -⟩ := clear.loop view
  obtain ⟨same, yields⟩ := isIter.eval first
  obtain ⟨sames, does⟩ := turns
  exact ⟨sames.trans same, fun other => .forLoop view (yields other) started (does other)⟩

theorem Clear.refuses {v : Datum ω} {x : ξ} {u : σ} (view : stmtView n = .forLoop target iter body orelse)
    (first : Eval H apart iter s (.ok v) w) (refused : H.call .iter v w.user (.error x) u) :
    Untouched (Run H apart (.stmt n) · (.raised x) ·) s ⟨u, w.apart⟩ := by
  obtain ⟨-, isIter, -⟩ := clear.loop view
  obtain ⟨same, yields⟩ := isIter.eval first
  exact ⟨same, fun other => .forRefused (t := ⟨w.user, other⟩) view (yields other) refused⟩

theorem Clear.goesOn {v it : Datum ω} {u : σ} (view : stmtView n = .forLoop target iter body orelse)
    (item : H.call .next it s.user (.ok v) u) (bound : Bind H apart target v ⟨u, s.apart⟩ (.ok ()) w)
    (turn : (Code.block (ω := ω) body).Clear apart → Untouched (Run H apart (.block body) · q ·) w z)
    (again : q.again = true) (rest : Untouched (Run H apart (.turns it n) · r ·) z t) :
    Untouched (Run H apart (.turns it n) · r ·) s t := by
  obtain ⟨isTarget, -, bodies, -⟩ := clear.loop view
  obtain ⟨same, binds⟩ := isTarget.bind bound
  obtain ⟨kept, does⟩ := turn bodies
  obtain ⟨sames, doesRest⟩ := rest
  exact ⟨sames.trans (kept.trans same),
    fun other => .again view item (binds other) (does other) again (doesRest other)⟩

theorem Clear.stops {v it : Datum ω} {u : σ} (view : stmtView n = .forLoop target iter body orelse)
    (item : H.call .next it s.user (.ok v) u) (bound : Bind H apart target v ⟨u, s.apart⟩ (.ok ()) w)
    (turn : (Code.block (ω := ω) body).Clear apart → Untouched (Run H apart (.block body) · q ·) w t)
    (left : q.again = false) : Untouched (Run H apart (.turns it n) · q.leaving ·) s t := by
  obtain ⟨isTarget, -, bodies, -⟩ := clear.loop view
  obtain ⟨same, binds⟩ := isTarget.bind bound
  obtain ⟨kept, does⟩ := turn bodies
  exact ⟨kept.trans same, fun other => .left view item (binds other) (does other) left⟩

end Statements

-- The induction is on the run: the parts of what is run are clear, so each part is run in the same way.
theorem Code.Clear.untouched {c : Code ω} {s t : Store σ ω} {r : Ending ω ξ} (run : Run H apart c s r t) :
    c.Clear apart → Untouched (Run H apart c · r ·) s t := by
  induction run with
  | nil => exact fun _ => ⟨rfl, fun _ => .nil⟩
  | next first others ih ihs =>
    intro clear
    exact (ih (clear _ (List.mem_cons_self ..))).trans (ihs fun n member => clear n (List.mem_cons_of_mem _ member))
      .next
  | stop first ended ih => exact fun clear => (ih (clear _ (List.mem_cons_self ..))).mono fun does => .stop does ended
  | other view host => exact fun _ => ⟨rfl, fun _ => .other view host⟩
  | leave view => exact fun _ => ⟨rfl, fun _ => .leave view⟩
  | assign view first bound => exact fun clear => Meaning.Clear.assigns clear view first bound
  | unassigned view failed =>
    intro clear
    have isValue := Meaning.Clear.viewed clear view _ (List.mem_cons_self ..)
    exact (isValue.eval failed).mono (.unassigned view)
  | branch view tested taken ih => exact fun clear => Meaning.Clear.branches clear view tested ih
  | untested view failed =>
    exact fun clear => ((Meaning.Clear.tested clear view rfl).1.test failed).mono (.untested view)
  | guarded view ran uncaught ih =>
    intro clear
    obtain ⟨bodies, -⟩ := List.forall_mem_append.mp (Meaning.Clear.viewed clear view)
    exact (ih bodies).mono fun does => .guarded view does uncaught
  | handled view ran caught handling ih ihs => exact fun clear => Meaning.Clear.handles clear view ih caught ihs
  | whileFailed view failed =>
    exact fun clear => ((Meaning.Clear.tested clear view rfl).1.test failed).mono (.whileFailed view)
  | whileDone view tested after ih =>
    intro clear
    obtain ⟨isTest, -, orelses⟩ := Meaning.Clear.tested clear view rfl
    exact (isTest.test tested).trans (ih orelses) (.whileDone view)
  | whileAgain view tested turn again rest ih ihs =>
    exact fun clear => Meaning.Clear.repeats clear view tested ih again (ihs clear)
  | whileLeft view tested turn left ih => exact fun clear => Meaning.Clear.leaves clear view tested ih left
  | forLoop view first started turns ih => exact fun clear => Meaning.Clear.starts clear view first started (ih clear)
  | forFailed view failed =>
    exact fun clear => ((Meaning.Clear.loop clear view).2.1.eval failed).mono (.forFailed view)
  | forRefused view first refused => exact fun clear => Meaning.Clear.refuses clear view first refused
  | exhausted view last stop after ih =>
    intro clear
    obtain ⟨same, does⟩ := ih (Meaning.Clear.loop clear view).2.2.2
    exact ⟨same, fun other => .exhausted view last stop (does other)⟩
  | interrupted view last stop => exact fun _ => ⟨rfl, fun _ => .interrupted view last stop⟩
  | unbound view item failed =>
    intro clear
    obtain ⟨same, binds⟩ := (Meaning.Clear.loop clear view).1.bind failed
    exact ⟨same, fun other => .unbound view item (binds other)⟩
  | again view item bound turn goesOn rest ih ihs =>
    exact fun clear => Meaning.Clear.goesOn clear view item bound ih goesOn (ihs clear)
  | left view item bound turn left ih => exact fun clear => Meaning.Clear.stops clear view item bound ih left

theorem Code.Clear.blind {c : Code ω} (clear : c.Clear apart) : Blind H apart c := fun _ _ _ run =>
  Code.Clear.untouched run clear

theorem Clear.blindExpr {e : Node} (clear : Clear apart e) : BlindExpr H apart e := fun _ _ _ value => clear.eval value

end TreeLowering.Meaning
