import TreeLowering.Proofs.CarriedOver
import TreeLowering.Proofs.Missing
import TreeLowering.Proofs.Numbering
import TreeLowering.Proofs.TypeCheck

namespace TreeLowering

namespace Reference

theorem node_missing (rules : List String) (s : NameSupply) (before : List Node) (n : Node) :
    (node rules s before n).missing = n.missing := by
  have same : ∀ (ss : List Slot) (fs : List Field) (before : List Node),
      (fs.zip (slots rules s before ss)).flatMap (fun field => field.2.missing field.1) =
        (fs.zip ss).flatMap fun field => field.2.missing field.1 := by
    intro ss
    induction ss with
    | nil => exact fun _ _ => rfl
    | cons held rest ih =>
      intro fs before
      cases fs with
      | nil => rfl
      | cons f fs =>
        have own : (slot rules s before held).missing f = held.missing f := by cases held <;> rfl
        rw [slots, List.zip_cons_cons, List.zip_cons_cons, List.flatMap_cons, List.flatMap_cons, ih, own]
  unfold Node.missing Node.fields
  rw [node_slots]
  exact same n.slots n.schema.fields before

end Reference

-- A loop that misses its body, or a name without a context that is assigned to, where the rules replace them.
inductive Overlooked (rules : List String) (root : Node) : Node → Prop where
  | body {m : Node} (rule : Rule.forLoopName ∈ rules) (met : m ∈ root.visited) (kind : m.kind = "For")
      (only : m.missing = ["body"]) : Overlooked rules root m
  | context {a m : Node} (rule : Rule.augAssignName ∈ rules) (met : a ∈ root.visited) (kind : a.kind = "AugAssign")
      (target : a.nodeAt? "target" = some m) (isName : m.kind = "Name") (only : m.missing = ["ctx"]) :
      Overlooked rules root m

def Passed (rules : List String) (root m : Node) : Prop := m.missing = [] ∨ Overlooked rules root m

section Passed

variable {rules : List String} {s : NameSupply} {before : List Node} {n child m : Node}

theorem Passed.above (member : child ∈ n.children) (passed : Passed rules child m) : Passed rules n m := by
  have above : ∀ {k}, k ∈ child.visited → k ∈ n.visited :=
    fun met => Node.mem_visited.mpr (.inr ⟨child, member, met⟩)
  refine passed.imp_right fun overlooked => ?_
  cases overlooked with
  | body rule met kind only => exact .body rule (above met) kind only
  | context rule met kind target isName only => exact .context rule (above met) kind target isName only

theorem contexts_bare :
    coreRegistry.schemas.all (fun s => !s.isSubkindOf "expr_context" || s.fields.isEmpty) = true := by
  decide +kernel

theorem context_alone (context : n.Is coreRegistry "expr_context") : ∃ schema, n = .mk schema [] := by
  have bare := List.all_eq_true.mp contexts_bare n.schema context.2.member
  rw [show n.schema.isSubkindOf "expr_context" = true from context.1, Bool.not_true, Bool.false_or,
    List.isEmpty_iff] at bare
  obtain ⟨schema, slots⟩ := n
  have typed := context.2.2
  rw [show schema.fields = [] from bare] at typed
  cases Slot.allTyped_nil typed
  exact ⟨schema, rfl⟩

theorem context_complete (context : n.Is coreRegistry "expr_context") (met : m ∈ n.visited) : m.missing = [] := by
  obtain ⟨schema, rfl⟩ := context_alone context
  cases List.mem_singleton.mp met
  unfold Node.missing Node.fields
  rw [show (Node.mk schema []).slots = [] from rfl, List.zip_nil_right]
  rfl

theorem target_passed (rule : Rule.augAssignName ∈ rules) (typed : n.WellTyped coreRegistry)
    (kind : n.kind = "AugAssign") (target : n.nodeAt? "target" = some child) (isName : child.kind = "Name")
    {id : String} (named : child.textAt? "id" = some id) (met : m ∈ child.visited) : Passed rules n m := by
  have typedChild := Node.child_typed typed (Node.nodeAt_child target)
  have schema := (core_kind (s := Core.name) (by simp [Core.schemas]) typedChild).mp isName
  have overlooked : child.missing = ["ctx"] → Passed rules n child := fun only =>
    .inr (.context rule n.self_visited kind target isName only)
  obtain ⟨_, slots⟩ := child
  cases schema
  obtain ⟨first, slots, rfl, -, typedChild⟩ := Slot.allTyped_cons typedChild.2
  obtain ⟨context, slots, rfl, ofContext, typedChild⟩ := Slot.allTyped_cons typedChild
  cases Slot.allTyped_nil typedChild
  have text : first = .value (.str id) := by
    cases first with
    | value v =>
      cases v with
      | str text =>
        cases named
        rfl
      | _ => cases named
    | _ => cases named
  subst text
  rcases Slot.one_cases ofContext with rfl | ⟨c, rfl, isContext⟩
  · cases List.mem_singleton.mp met
    exact overlooked rfl
  · rcases List.mem_cons.mp met with rfl | below
    · exact .inl rfl
    · refine .inl (context_complete isContext ?_)
      simpa [Slot.visitedAll, Slot.visited, Value.visited] using below

theorem loop_missing {target iter : Node} (typed : n.WellTyped coreRegistry) (schema : n.schema = Core.forLoop)
    (targeted : n.nodeAt? "target" = some target) (iterated : n.nodeAt? "iter" = some iter) :
    n.missing = [] ∨ n.missing = ["body"] := by
  rw [Node.missing_unset typed.sized (by rw [schema]; decide), schema,
    show Core.forLoop.mandatory = ["target", "iter", "body"] from rfl]
  cases body : n.isSet "body" with
  | true => exact .inl (by simp [Node.nodeAt_set targeted, Node.nodeAt_set iterated, body])
  | false => exact .inr (by simp [Node.nodeAt_set targeted, Node.nodeAt_set iterated, body])

theorem augmented_missing {target op value : Node} (typed : n.WellTyped coreRegistry)
    (schema : n.schema = Core.augAssign) (targeted : n.nodeAt? "target" = some target)
    (operated : n.nodeAt? "op" = some op) (valued : n.nodeAt? "value" = some value) : n.missing = [] := by
  rw [Node.missing_unset typed.sized (by rw [schema]; decide), schema,
    show Core.augAssign.mandatory = ["target", "op", "value"] from rfl]
  simp [Node.nodeAt_set targeted, Node.nodeAt_set operated, Node.nodeAt_set valued]

theorem asserted_missing {test : Node} (typed : n.WellTyped coreRegistry) (schema : n.schema = Core.assertion)
    (tested : n.nodeAt? "test" = some test) : n.missing = [] := by
  rw [Node.missing_unset typed.sized (by rw [schema]; decide), schema,
    show Core.assertion.mandatory = ["test"] from rfl]
  simp [Node.nodeAt_set tested]

-- The induction is on the tree: what comes in the place of a node misses nothing, so what a rule carried over
-- misses nothing, and the rest is overlooked.
theorem lowered_passed (n : Node) : n.WellTyped coreRegistry → ∀ before,
    (∀ x ∈ (Reference.lowered rules s before n).visited, x.missing = []) → ∀ m ∈ n.visited, Passed rules n m := by
  induction n using Node.children_induct with
  | step n ih =>
    intro typed before complete m met
    have carried : ∀ c ∈ n.children, (∃ behind, (Reference.lowered rules s behind c).visited ⊆
        (Reference.lowered rules s before n).visited) → ∀ m ∈ c.visited, Passed rules n m := by
      rintro c inside ⟨behind, part⟩ m met
      exact (ih c inside (Node.child_typed typed inside) behind (fun x there => complete x (part there)) m met).above
        inside
    unfold Reference.lowered Reference.place at complete carried
    cases read : Reference.reading? rules (Reference.node rules s before n) with
    | none =>
      rw [read] at complete carried
      simp only [Replacement.visited_ofNode] at complete carried
      rcases Node.mem_visited.mp met with rfl | ⟨c, inside, below⟩
      · left
        rw [← Reference.node_missing rules s before m]
        exact complete _ (Node.self_visited _)
      · exact carried c inside (Reference.visited_child rules s typed inside before) m below
    | some reading =>
      rw [read] at complete carried
      rcases Reference.reading_cases read with
        ⟨kind, rule, target, iter, targeted, iterated, rfl⟩ |
        ⟨kind, rule, target, id, op, value, targeted, isName, named, operated, valued, rfl⟩ |
        ⟨kind, rule, test, tested, rfl⟩ <;> rw [Reference.node_kind] at kind
      · have schema := (core_kind (s := Core.forLoop) (by simp [Core.schemas]) typed).mp kind
        obtain ⟨_, _, hasTarget, -⟩ := node_original targeted
        obtain ⟨_, _, hasIter, -⟩ := node_original iterated
        rcases Node.mem_visited.mp met with rfl | ⟨c, inside, below⟩
        · exact (loop_missing typed schema hasTarget hasIter).imp_right (.body rule m.self_visited kind)
        · refine carried c inside (loop_covers typed schema targeted iterated (fun undrawn => ?_) inside) m below
          simpa [Reference.loopNames] using undrawn
      · have schema := (core_kind (s := Core.augAssign) (by simp [Core.schemas]) typed).mp kind
        obtain ⟨_, t, hasTarget, rfl⟩ := node_original targeted
        obtain ⟨_, _, hasOp, -⟩ := node_original operated
        obtain ⟨_, _, hasValue, -⟩ := node_original valued
        rcases Node.mem_visited.mp met with rfl | ⟨c, inside, below⟩
        · exact .inl (augmented_missing typed schema hasTarget hasOp hasValue)
        · rcases augmented_covers typed schema hasTarget operated valued inside with rfl | covered
          · rw [Reference.node_kind] at isName
            rw [Reference.node_textAt] at named
            exact target_passed rule typed kind hasTarget isName named below
          · exact carried c inside covered m below
      · have schema := (core_kind (s := Core.assertion) (by simp [Core.schemas]) typed).mp kind
        obtain ⟨_, _, hasTest, -⟩ := node_original tested
        rcases Node.mem_visited.mp met with rfl | ⟨c, inside, below⟩
        · exact .inl (asserted_missing typed schema hasTest)
        · exact carried c inside (assertion_covers typed schema tested inside) m below

end Passed

namespace Desugarer

variable {d : Desugarer} {names : List String} {root after : Node} {s : NameSupply}

-- A run that succeeds leaves nothing of the tree unnoticed but what is overlooked: the tree can be completed,
-- or it is refused for a body that was read as empty or a context that was made anew.
theorem run_overlooks (made : ofNames coreRegistry names = .ok d) (typed : root.WellTyped coreRegistry)
    (ran : ((d.run root).run s).1 = .ok after) :
    (∀ m ∈ root.visited, m.missing = [] ∨ Overlooked names root m) ∧
    (root.finalize.2 = .ok () ∨
      ∃ m ∈ root.visited, Overlooked names root m ∧ root.finalize.2 = .error (.incomplete m.kind m.missing)) := by
  obtain ⟨indexed, named⟩ := ofNames_made made
  obtain ⟨_, same, builtin, registry⟩ := ofNames_builtin (r := coreRegistry) (ofNames_known made)
  cases made.symm.trans same
  obtain ⟨t, rewritten, completed⟩ := ((run_exact builtin registry typed s).2 after).mp ran
  have passed : ∀ m ∈ root.visited, m.missing = [] ∨ Overlooked names root m := by
    have follows := Reference.rewrite_follows builtin registry indexed typed s
    have ends := rewrite_ends builtin registry typed s
    generalize (d.rewrite root).run s = done at rewritten follows ends
    obtain ⟨outcome, rest⟩ := done
    cases rewritten
    have complete : ∀ x ∈ t.visited, x.missing = [] := by
      rcases Node.finalize_complete core_plain t ends.1 with ⟨-, complete⟩ | ⟨m, -, -, broken⟩
      · exact complete
      · rw [completed] at broken
        cases broken
    rw [← named]
    refine lowered_passed (s := s) root typed [] fun x met => complete x ?_
    rw [follows.1, Replacement.visited_ofNode] at met
    exact met
  refine ⟨passed, ?_⟩
  rcases Node.finalize_complete core_plain root typed with ⟨fine, -⟩ | ⟨m, met, misses, broken⟩
  · exact .inl fine
  · exact .inr ⟨m, met, (passed m met).resolve_left misses, broken⟩

theorem pollingLoop_completes : ∃ d after, ofNames coreRegistry ["assert", "for-loop", "assert"] = .ok d ∧
    ((d.run pollingLoop).run .initial).1 = .ok after ∧
    (pollingLoop.finalize.2 = .ok () ∨ ∃ m ∈ pollingLoop.visited,
      Overlooked ["assert", "for-loop", "assert"] pollingLoop m ∧
        pollingLoop.finalize.2 = .error (.incomplete m.kind m.missing)) := by
  obtain ⟨d, made, builtin, registry⟩ :=
    ofNames_builtin (r := coreRegistry)
      (show ∀ name ∈ ["assert", "for-loop", "assert"], (Rule.ofName? name).isSome from by decide)
  obtain ⟨indexed, named⟩ := ofNames_made made
  have ran := run_succeeds builtin registry indexed pollingLoop_typed (by decide) (by decide) (s := .initial)
    (t := Lowered.whileTrue ((Lowered.loop ⟨"__iter_0", "__item_0", some "__nobreak_0"⟩
      ⟨Lowered.store "x", Lowered.load "xs", [.node (Lowered.raiseUnless (Lowered.load "x") none)],
        [.node (.empty Core.leave)]⟩).map .node)) (by rw [named]; rfl) rfl
  exact ⟨d, _, made, ran, (run_overlooks made pollingLoop_typed ran).2⟩

def bodiless : Node := Lowered.whileTrue [.node (.mk Core.forLoop [.value (.node (Lowered.store "x")),
  .value (.node (Lowered.load "xs")), .unset, .unset, .unset])]

theorem bodiless_typed : bodiless.WellTyped coreRegistry := by
  refine (whileTrue_done ruleless_builtin (List.cons_ne_nil _ _) (allDone_one ?_)).1.2
  exact ruleless_done (by simp [Core.schemas]) rfl
    (.cons (one_holds (store_done ruleless_builtin rfl)) (.cons (one_holds (load_done ruleless_builtin rfl))
      (.cons unset_holds (.cons unset_holds (.cons unset_holds .nil)))))

def addition : Schema := Core.member "operator" "Add" []

def contextless : Node := Lowered.whileTrue [.node (.mk Core.augAssign [
  .value (.node (.mk Core.name [.value (.str "x"), .unset])), .value (.node (.empty addition)),
  .value (.node (Lowered.load "y"))])]

theorem contextless_typed : contextless.WellTyped coreRegistry := by
  have valid : Text.isIdentifier "x" = true := rfl
  have registered : coreRegistry.get? "Add" = some addition :=
    core_other (s := addition) (by simp [Core.others, addition])
  have target : (empty coreRegistry).Done "expr" (.mk Core.name [.value (.str "x"), .unset]) :=
    ruleless_done (by simp [Core.schemas]) rfl (.cons ⟨⟨valid, trivial⟩, nofun⟩ (.cons unset_holds .nil))
  have operator : (empty coreRegistry).Done "operator" (.empty addition) :=
    ⟨⟨rfl, Registry.get_member registered, trivial⟩, ruleless_settled _⟩
  refine (whileTrue_done ruleless_builtin (List.cons_ne_nil _ _) (allDone_one ?_)).1.2
  exact ruleless_done (by simp [Core.schemas]) rfl (.cons (one_holds target) (.cons (one_holds operator)
    (.cons (one_holds (load_done ruleless_builtin rfl)) .nil)))

-- Both are desugared, and both are incomplete.
theorem incomplete_accepted :
    (bodiless.WellTyped coreRegistry ∧
      (((standard coreRegistry).run bodiless).run .initial).1 =
        .ok (Lowered.whileTrue ((Lowered.loop ⟨"__iter_0", "__item_0", none⟩
          ⟨Lowered.store "x", Lowered.load "xs", [], []⟩).map .node)).finalize.1 ∧
      bodiless.finalize.2 = .error (.incomplete "For" ["body"])) ∧
    (contextless.WellTyped coreRegistry ∧
      (((standard coreRegistry).run contextless).run .initial).1 =
        .ok (Lowered.whileTrue [.node (Lowered.spelledOut "x" (.empty addition) (Lowered.load "y"))]).finalize.1 ∧
      contextless.finalize.2 = .error (.incomplete "Name" ["ctx"])) :=
  ⟨⟨bodiless_typed, run_succeeds (standard_builtin coreRegistry) (standard_registry coreRegistry)
      (standard_indexed coreRegistry) bodiless_typed (by decide) (by decide) rfl rfl, rfl⟩,
    contextless_typed, run_succeeds (standard_builtin coreRegistry) (standard_registry coreRegistry)
      (standard_indexed coreRegistry) contextless_typed (by decide) (by decide) rfl rfl, rfl⟩

end Desugarer

end TreeLowering
