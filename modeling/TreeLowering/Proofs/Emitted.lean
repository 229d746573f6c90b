import TreeLowering.Proofs.RuleResults
import TreeLowering.Proofs.Matching
import Mathlib.Data.List.Forall2

namespace TreeLowering.Desugarer

def Done (d : Desugarer) (kind : String) (n : Node) : Prop := n.Is coreRegistry kind ∧ d.Settled n

def AllDone (d : Desugarer) (items : List Value) : Prop := ∀ item ∈ items, ∃ n, item = .node n ∧ d.Done "stmt" n

variable {d : Desugarer}

theorem AllDone.statements {items : List Value} (done : d.AllDone items) : Statements coreRegistry items := by
  intro item member
  obtain ⟨n, same, isDone⟩ := done item member
  exact ⟨n, same, isDone.1⟩

theorem AllDone.accepted {items : List Value} (done : d.AllDone items) :
    ∀ item ∈ items, (ElementType.kind "stmt").accepts item = true := done.statements.accepted

theorem AllDone.typed {items : List Value} (done : d.AllDone items) : Value.AllTyped coreRegistry items := by
  refine Value.allTyped_mem.mpr fun item member => ?_
  obtain ⟨n, rfl, isDone⟩ := done item member
  exact isDone.1.2

theorem AllDone.children {items : List Value} (done : d.AllDone items) :
    ∀ child ∈ items.filterMap Value.node?, d.Settled child := by
  intro child member
  obtain ⟨item, inside, isNode⟩ := List.mem_filterMap.mp member
  obtain ⟨n, rfl, isDone⟩ := done item inside
  cases isNode
  exact isDone.2

theorem allDone_one {n : Node} (done : d.Done "stmt" n) : d.AllDone [.node n] := by
  intro item member
  rw [List.mem_singleton.mp member]
  exact ⟨n, rfl, done⟩

theorem settled_node {n : Node} (own : d.findMatch? n = .ok none)
    (children : ∀ child ∈ n.children, d.Settled child) : d.Settled n := by
  intro m met
  rcases Node.mem_visited.mp met with rfl | ⟨child, inside, below⟩
  · exact own
  · exact children child inside m below

-- A slot that fits its field and holds nothing that a rule still matches.
def Holds (d : Desugarer) (f : Field) (s : Slot) : Prop :=
  s.Typed coreRegistry f ∧ ∀ child ∈ s.children, d.Settled child

section Slots

variable {name kind : String} {n : Node} {nodes : List Node} {items : List Value}

theorem unset_holds {f : Field} : d.Holds f .unset := ⟨trivial, nofun⟩

theorem one_holds (done : d.Done kind n) : d.Holds (Core.one name kind) (.value (.node n)) :=
  ⟨done.1, fun _ member => List.mem_singleton.mp member ▸ done.2⟩

theorem maybe_holds (done : d.Done kind n) : d.Holds (Core.maybe name kind) (.value (.node n)) :=
  ⟨⟨Core.maybe_fits.mpr done.1.1, done.1.2⟩, fun _ member => List.mem_singleton.mp member ▸ done.2⟩

theorem many_holds (done : ∀ n ∈ nodes, d.Done kind n) :
    d.Holds (Core.many name kind) (.value (.ofNodes nodes)) := by
  refine ⟨⟨Core.many_fits.mpr ?_, Value.allTyped_mem.mpr ?_⟩, ?_⟩
  · simpa using fun n member => (done n member).1.1
  · intro item member
    obtain ⟨n, inside, rfl⟩ := List.mem_map.mp member
    exact (done n inside).1.2
  · intro child member
    have inside : child ∈ nodes := by
      simpa [Slot.children, Value.ofNodes, Value.mem_children, Value.items?] using member
    exact (done child inside).2

theorem several_holds (nonempty : nodes ≠ []) (done : ∀ n ∈ nodes, d.Done kind n) :
    d.Holds (Core.several name kind) (.value (.ofNodes nodes)) := by
  have held : d.Holds (Core.many name kind) (.value (.ofNodes nodes)) := many_holds done
  obtain ⟨⟨fits, typed⟩, settled⟩ := held
  exact ⟨⟨Core.several_fits.mpr ⟨by simpa using nonempty, Core.many_fits.mp fits⟩, typed⟩, settled⟩

theorem statements_hold (done : d.AllDone items) :
    d.Holds (Core.many name "stmt") (.value (.list items)) :=
  ⟨⟨Core.many_fits.mpr done.accepted, done.typed⟩, done.children⟩

theorem someStatements_hold (nonempty : items ≠ []) (done : d.AllDone items) :
    d.Holds (Core.several name "stmt") (.value (.list items)) :=
  ⟨⟨Core.several_fits.mpr ⟨nonempty, done.accepted⟩, done.typed⟩, done.children⟩

end Slots

theorem slots_hold {fs : List Field} {ss : List Slot} (all : List.Forall₂ d.Holds fs ss) :
    Slot.AllTyped coreRegistry fs ss ∧ ∀ s ∈ ss, ∀ child ∈ s.children, d.Settled child := by
  induction all with
  | nil => exact ⟨trivial, nofun⟩
  | cons first _ ih => exact ⟨⟨first.1, ih.1⟩, List.forall_mem_cons.mpr ⟨first.2, ih.2⟩⟩

-- No rule matches a node of another kind, so it is done when its slots are.
theorem done_mk (builtin : d.Builtin) {s : Schema} {slots : List Slot} {kind : String}
    (lowering : s ∈ Core.schemas) (other : s.kind ∉ Core.replaced) (isKind : s.isSubkindOf kind = true)
    (all : List.Forall₂ d.Holds s.fields slots) : d.Done kind (.mk s slots) := by
  obtain ⟨typed, settled⟩ := slots_hold all
  have wellTyped : (Node.mk s slots).WellTyped coreRegistry := ⟨core_member lowering, typed⟩
  refine ⟨⟨isKind, wellTyped⟩, settled_node (findMatch_none builtin wellTyped other) fun child member => ?_⟩
  obtain ⟨slot, inside, held⟩ := Node.mem_children.mp member
  exact settled slot inside child held

section Emitted

variable (builtin : d.Builtin) {id : String} {target value test operand exc left op right : Node}
  {args : List Node} {body orelse : List Value}

include builtin

theorem leaf_done {s : Schema} {kind : String} (lowering : s ∈ Core.schemas) (other : s.kind ∉ Core.replaced)
    (isKind : s.isSubkindOf kind = true) (bare : s.fields = []) : d.Done kind (.empty s) := by
  rw [Node.empty, bare]
  exact done_mk builtin lowering other isKind (by rw [bare]; exact .nil)

theorem name_done {context : Node} (valid : Text.isIdentifier id = true)
    (isContext : d.Done "expr_context" context) :
    d.Done "expr" (.mk Core.name [.value (.str id), .value (.node context)]) :=
  done_mk builtin (by simp [Core.schemas]) (by decide) rfl
    (.cons ⟨⟨valid, trivial⟩, nofun⟩ (.cons (one_holds isContext) .nil))

theorem load_done (valid : Text.isIdentifier id = true) : d.Done "expr" (Lowered.load id) :=
  name_done builtin valid (leaf_done builtin (by simp [Core.schemas]) (by decide) rfl rfl)

theorem store_done (valid : Text.isIdentifier id = true) : d.Done "expr" (Lowered.store id) :=
  name_done builtin valid (leaf_done builtin (by simp [Core.schemas]) (by decide) rfl rfl)

theorem truth_done (b : Bool) : d.Done "expr" (Lowered.truth b) :=
  done_mk builtin (by simp [Core.schemas]) (by decide) rfl (.cons ⟨⟨rfl, trivial⟩, nofun⟩ .nil)

theorem assign_done (isTarget : d.Done "expr" target) (isValue : d.Done "expr" value) :
    d.Done "stmt" (Lowered.assign target value) :=
  done_mk builtin (by simp [Core.schemas]) (by decide) rfl
    (.cons (several_holds (List.cons_ne_nil _ _) (by simpa using isTarget))
      (.cons (one_holds isValue) (.cons unset_holds .nil)))

theorem call_done {func : String} (valid : Text.isIdentifier func = true)
    (areArgs : ∀ arg ∈ args, d.Done "expr" arg) : d.Done "expr" (Lowered.call func args) :=
  done_mk builtin (by simp [Core.schemas]) (by decide) rfl
    (.cons (one_holds (load_done builtin valid)) (.cons (many_holds areArgs) (.cons unset_holds .nil)))

theorem whileTrue_done (nonempty : body ≠ []) (isBody : d.AllDone body) :
    d.Done "stmt" (Lowered.whileTrue body) :=
  done_mk builtin (by simp [Core.schemas]) (by decide) rfl
    (.cons (one_holds (truth_done builtin true))
      (.cons (someStatements_hold nonempty isBody) (.cons unset_holds .nil)))

theorem ifThen_done (isTest : d.Done "expr" test) (nonempty : body ≠ []) (isBody : d.AllDone body)
    (isOrelse : d.AllDone orelse) : d.Done "stmt" (Lowered.ifThen test body orelse) :=
  done_mk builtin (by simp [Core.schemas]) (by decide) rfl
    (.cons (one_holds isTest)
      (.cons (someStatements_hold nonempty isBody) (.cons (statements_hold isOrelse) .nil)))

theorem tryExcept_done {tried handled : List Node} {exception : String}
    (valid : Text.isIdentifier exception = true) (triedSome : tried ≠ []) (handledSome : handled ≠ [])
    (tries : ∀ n ∈ tried, d.Done "stmt" n) (handles : ∀ n ∈ handled, d.Done "stmt" n) :
    d.Done "stmt" (Lowered.tryExcept tried exception handled) := by
  have isHandler : d.Done "excepthandler" (Lowered.handler exception handled) :=
    done_mk builtin (by simp [Core.schemas]) (by decide) rfl
      (.cons (maybe_holds (load_done builtin valid))
        (.cons unset_holds (.cons (several_holds handledSome handles) .nil)))
  exact done_mk builtin (by simp [Core.schemas]) (by decide) rfl
    (.cons (several_holds triedSome tries)
      (.cons (many_holds (by simpa using isHandler)) (.cons unset_holds (.cons unset_holds .nil))))

theorem negation_done (isOperand : d.Done "expr" operand) : d.Done "expr" (Lowered.negation operand) :=
  done_mk builtin (by simp [Core.schemas]) (by decide) rfl
    (.cons (one_holds (leaf_done builtin (by simp [Core.schemas]) (by decide) rfl rfl))
      (.cons (one_holds isOperand) .nil))

theorem raise_done (isException : d.Done "expr" exc) : d.Done "stmt" (Lowered.raise exc) :=
  done_mk builtin (by simp [Core.schemas]) (by decide) rfl
    (.cons (maybe_holds isException) (.cons unset_holds .nil))

theorem binOp_done (isLeft : d.Done "expr" left) (isOp : d.Done "operator" op)
    (isRight : d.Done "expr" right) : d.Done "expr" (Lowered.binOp left op right) :=
  done_mk builtin (by simp [Core.schemas]) (by decide) rfl
    (.cons (one_holds isLeft) (.cons (one_holds isOp) (.cons (one_holds isRight) .nil)))

theorem spelledOut_done (valid : Text.isIdentifier id = true) (isOp : d.Done "operator" op)
    (isValue : d.Done "expr" value) : d.Done "stmt" (Lowered.spelledOut id op value) :=
  assign_done builtin (store_done builtin valid) (binOp_done builtin (load_done builtin valid) isOp isValue)

theorem raiseUnless_done {msg : Option Node} (isTest : d.Done "expr" test)
    (isMessage : ∀ m, msg = some m → d.Done "expr" m) : d.Done "stmt" (Lowered.raiseUnless test msg) := by
  have called : d.Done "expr" (Lowered.call "AssertionError" msg.toList) :=
    call_done builtin rfl fun arg member => isMessage arg (Option.mem_toList.mp member)
  refine ifThen_done builtin (negation_done builtin isTest) (List.cons_ne_nil _ _) ?_ nofun
  exact allDone_one (raise_done builtin called)

variable {names : Rule.LoopNames} {loop : Rule.Loop}

theorem flag_done (valid : names.Valid) (b : Bool) : ∀ n ∈ Lowered.flag names b, d.Done "stmt" n := by
  intro n member
  obtain ⟨flag, drawn, rfl⟩ := Option.map_eq_some_iff.mp (Option.mem_toList.mp member)
  exact assign_done builtin (store_done builtin (valid.exhausted flag drawn)) (truth_done builtin b)

theorem advance_done (valid : names.Valid) : d.Done "stmt" (Lowered.advance names) := by
  have next : d.Done "expr" (Lowered.call "next" [Lowered.load names.iterator]) :=
    call_done builtin rfl (by simpa using load_done builtin valid.iterator)
  have step := assign_done builtin (store_done builtin valid.item) next
  have leave : d.Done "stmt" (.empty Core.leave) :=
    leaf_done builtin (by simp [Core.schemas]) (by decide) rfl rfl
  refine tryExcept_done builtin rfl (List.cons_ne_nil _ _) (by simp) (by simpa using step) ?_
  intro n member
  rcases List.mem_append.mp member with raised | same
  · exact flag_done builtin valid true n raised
  · exact List.mem_singleton.mp same ▸ leave

theorem loop_done (valid : names.Valid) (flagged : names.exhausted = none ∨ loop.orelse ≠ [])
    (isTarget : d.Done "expr" loop.target) (isIter : d.Done "expr" loop.iter) (isBody : d.AllDone loop.body)
    (isOrelse : d.AllDone loop.orelse) : ∀ n ∈ Lowered.loop names loop, d.Done "stmt" n := by
  have called : d.Done "expr" (Lowered.call "iter" [loop.iter]) := call_done builtin rfl (by simpa using isIter)
  have start := assign_done builtin (store_done builtin valid.iterator) called
  have bind := assign_done builtin isTarget (load_done builtin valid.item)
  have turn : d.AllDone (Lowered.turn names loop) := by
    intro item member
    simp only [Lowered.turn, List.mem_cons] at member
    rcases member with rfl | rfl | inside
    · exact ⟨_, rfl, advance_done builtin valid⟩
    · exact ⟨_, rfl, bind⟩
    · exact isBody item inside
  intro n member
  simp only [Lowered.loop, List.mem_append, List.mem_cons, List.not_mem_nil, or_false] at member
  rcases member with (cleared | rfl | rfl) | tested
  · exact flag_done builtin valid false n cleared
  · exact start
  · exact whileTrue_done builtin (List.cons_ne_nil _ _) turn
  · obtain ⟨flag, drawn, rfl⟩ := Option.map_eq_some_iff.mp (Option.mem_toList.mp tested)
    have nonempty := flagged.resolve_left (by rw [drawn]; exact Option.some_ne_none flag)
    exact ifThen_done builtin (load_done builtin (valid.exhausted flag drawn)) nonempty isOrelse
      (List.forall_mem_nil _)

end Emitted

end TreeLowering.Desugarer
