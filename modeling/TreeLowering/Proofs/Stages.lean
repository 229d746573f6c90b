import TreeLowering.Proofs.Survivors

namespace TreeLowering

theorem Value.postorderAll_append (vs ws : List Value) :
    Value.postorderAll (vs ++ ws) = Value.postorderAll vs ++ Value.postorderAll ws := by
  simp only [Value.postorderAll_children, List.filterMap_append, List.flatMap_append]

theorem Replacement.postorder_ofNode (n : Node) : Value.postorderAll (Replacement.ofNode n).elements = n.postorder :=
  List.append_nil _

namespace Reference

section Sequences

variable {rules : List String} {s : NameSupply} {n : Node} {before : List Node} {vs ws : List Value}

theorem items_append : items rules s before (vs ++ ws) =
    items rules s before vs ++ items rules s (before ++ loops rules (Value.postorderAll vs)) ws := by
  induction vs generalizing before with
  | nil => simp [items, Value.postorderAll, loops_nil]
  | cons v rest ih =>
    rw [List.cons_append, items, ih, items, Value.postorderAll, loops_append]
    simp

theorem items_cons (ws : List Value) : items rules s before (.node n :: ws) =
    (lowered rules s before n).elements ++ items rules s (before ++ loops rules n.postorder) ws := rfl

theorem loops_cons (ws : List Value) : loops rules (Value.postorderAll (.node n :: ws)) =
    loops rules n.postorder ++ loops rules (Value.postorderAll ws) := loops_append ..

theorem items_skip (inert : n.Inert) (ws : List Value) :
    items rules s before (.node n :: ws) = .node n :: items rules s before ws := by
  rw [items_cons, lowered_same (inert_unread rules inert), loops_inert inert, List.append_nil]
  rfl

theorem loops_skip (inert : n.Inert) (ws : List Value) :
    loops rules (Value.postorderAll (.node n :: ws)) = loops rules (Value.postorderAll ws) := by
  rw [loops_cons, loops_inert inert, List.nil_append]

theorem items_skips (rules : List String) (s : NameSupply) (before : List Node) {ns : List Node}
    (inert : ∀ n ∈ ns, n.Inert) (ws : List Value) :
    items rules s before (ns.map .node ++ ws) = ns.map .node ++ items rules s before ws ∧
      loops rules (Value.postorderAll (ns.map .node ++ ws)) = loops rules (Value.postorderAll ws) := by
  induction ns with
  | nil => exact ⟨rfl, rfl⟩
  | cons n rest ih =>
    rw [List.forall_mem_cons] at inert
    obtain ⟨kept, none⟩ := ih inert.2
    rw [List.map_cons, List.cons_append, items_skip inert.1, loops_skip inert.1, kept, none]
    exact ⟨rfl, rfl⟩

theorem body_again (rules : List String) (s : NameSupply) (before : List Node) {schema : Schema} {last : Slot}
    (own : schema.kind ∉ Core.replaced) (inert : n.Inert) (ofLast : last.Inert) (vs : List Value) :
    lowered rules s before (.mk schema [.value (.node n), .value (.list vs), last]) =
        .ofNode (.mk schema [.value (.node n), .value (.list (items rules s before vs)), last]) ∧
      loops rules (Node.mk schema [.value (.node n), .value (.list vs), last]).postorder =
        loops rules (Value.postorderAll vs) := by
  have fixed : node rules s before n = n := node_inert inert before
  have none : loops rules n.postorder = [] := loops_inert inert
  have keeps : ∀ before, slot rules s before last = last := fun before => (slot_inert rules s ofLast before).1
  have noLast : loops rules last.postorder = [] := (slot_inert rules s ofLast before).2
  have rebuilt : node rules s before (.mk schema [.value (.node n), .value (.list vs), last]) =
      .mk schema [.value (.node n), .value (.list (items rules s before vs)), last] := by
    simp [node, slots, slot, value, keeps, Slot.postorder, Value.postorder, fixed, none]
  refine ⟨?_, ?_⟩
  · rw [lowered_unread (reading_other (by rwa [node_kind])), rebuilt]
  · have other : loops rules [Node.mk schema [.value (.node n), .value (.list vs), last]] = [] := by
      have notLoop : schema.kind ≠ "For" := fun same => own (by simp [same, Core.replaced])
      rw [loops_one, if_neg fun both => notLoop both.1]
    rw [Node.postorder_beneath, loops_append, other]
    simp [Node.beneath, Node.slots, Slot.postorderAll, Slot.postorder, Value.postorder, loops_append, none, noLast]

theorem whileTrue_again (rules : List String) (s : NameSupply) (before : List Node) (vs : List Value) :
    lowered rules s before (Lowered.whileTrue vs) = .ofNode (Lowered.whileTrue (items rules s before vs)) ∧
      loops rules (Lowered.whileTrue vs).postorder = loops rules (Value.postorderAll vs) :=
  body_again rules s before (by decide) Lowered.truth_inert Slot.inert_unset vs

theorem ifThen_again (rules : List String) (s : NameSupply) (before : List Node) (inert : n.Inert) (vs : List Value) :
    lowered rules s before (Lowered.ifThen n vs []) = .ofNode (Lowered.ifThen n (items rules s before vs) []) ∧
      loops rules (Lowered.ifThen n vs []).postorder = loops rules (Value.postorderAll vs) :=
  body_again rules s before (by decide) inert (by simp) vs

-- Of an emitted loop a further pass finds the statements of the body, and behind them those of the `else` part.
theorem loop_again (rules : List String) (s : NameSupply) (before : List Node) {names : Rule.LoopNames}
    {target iter : Node} {body orelse : List Value} (ofTarget : target.Inert) (ofIter : iter.Inert)
    (flagged : names.exhausted = none → orelse = []) :
    items rules s before ((Lowered.loop names ⟨target, iter, body, orelse⟩).map .node) =
        (Lowered.loop names ⟨target, iter, items rules s before body,
          items rules s (before ++ loops rules (Value.postorderAll body)) orelse⟩).map .node ∧
      loops rules (Value.postorderAll ((Lowered.loop names ⟨target, iter, body, orelse⟩).map .node)) =
        loops rules (Value.postorderAll body) ++ loops rules (Value.postorderAll orelse) := by
  have start : (Lowered.assign (Lowered.store names.iterator) (Lowered.call "iter" [iter])).Inert :=
    Lowered.assign_inert Lowered.store_inert (Lowered.call_inert (by simpa using ofIter))
  have bind : (Lowered.assign target (Lowered.load names.item)).Inert :=
    Lowered.assign_inert ofTarget Lowered.load_inert
  have step := Lowered.advance_inert names
  have turning : items rules s before (Lowered.turn names ⟨target, iter, body, orelse⟩) =
        Lowered.turn names ⟨target, iter, items rules s before body, orelse⟩ ∧
      loops rules (Value.postorderAll (Lowered.turn names ⟨target, iter, body, orelse⟩)) =
        loops rules (Value.postorderAll body) := by
    rw [Lowered.turn, items_skip step, items_skip bind, loops_skip step, loops_skip bind]
    exact ⟨rfl, rfl⟩
  have repeated := whileTrue_again rules s before (Lowered.turn names ⟨target, iter, body, orelse⟩)
  rw [turning.1, turning.2] at repeated
  have statements : ∀ parts : Rule.Loop, (Lowered.loop names parts).map Value.node =
      (Lowered.flag names false).map .node ++ .node (Lowered.assign (Lowered.store names.iterator)
        (Lowered.call "iter" [parts.iter])) :: .node (Lowered.whileTrue (Lowered.turn names parts)) ::
        (names.exhausted.map fun flag => Lowered.ifThen (Lowered.load flag) parts.orelse []).toList.map .node := by
    intro parts
    simp [Lowered.loop]
  have cleared := items_skips rules s before (Lowered.flag_inert names false)
  rw [statements, statements, (cleared _).1, (cleared _).2, items_skip start, loops_skip start,
    items_cons, loops_cons, repeated.1, repeated.2]
  cases drawn : names.exhausted with
  | none =>
    rw [flagged drawn]
    exact ⟨rfl, rfl⟩
  | some flag =>
    obtain ⟨tested, inOrelse⟩ := ifThen_again rules s (before ++ loops rules (Value.postorderAll body))
      (show (Lowered.load flag).Inert from Lowered.load_inert) orelse
    simp only [Option.map_some, Option.toList_some, List.map_cons, List.map_nil]
    rw [items_cons, loops_cons, tested, inOrelse]
    exact ⟨rfl, by simp [Value.postorderAll, loops_nil]⟩

end Sequences

def Joins (both first second : List String) : Prop := ∀ name, name ∈ both ↔ name ∈ first ∨ name ∈ second

-- Behind the one and behind the other nodes the supplies are equally far.
def Level (s : NameSupply) (before : List Node) (t : NameSupply) (behind : List Node) : Prop :=
  ∀ hint, s.issued hint + uses hint before = t.issued hint + uses hint behind

-- How far the two passes and the single one have come: the single one is level with the pass that numbers loops.
structure Aligned (first : List String) (s : NameSupply) (before : List Node) (u : NameSupply) (later : List Node)
    (t : NameSupply) (behind : List Node) : Prop where
  early : Rule.forLoopName ∈ first → Level s before t behind
  late : Rule.forLoopName ∉ first → Level u later t behind

def loopsLeft (first second : List String) (nodes : List Node) : List Node :=
  if Rule.forLoopName ∈ first then [] else loops second nodes

section Positions

variable {first second both rules others : List String} {s t u : NameSupply} {before later behind passed : List Node}

theorem loops_congr (same : Rule.forLoopName ∈ rules ↔ Rule.forLoopName ∈ others) (nodes : List Node) :
    loops rules nodes = loops others nodes := by
  have agree : rules.contains Rule.forLoopName = others.contains Rule.forLoopName := by
    rw [Bool.eq_iff_iff, List.contains_iff_mem, List.contains_iff_mem]
    exact same
  unfold loops
  rw [agree]

theorem loops_none (absent : Rule.forLoopName ∉ rules) (nodes : List Node) : loops rules nodes = [] := by
  simp [loops, absent]

theorem nothing_left : AsMany (loops second []) (loopsLeft first second []) := by
  unfold loopsLeft
  split <;> exact .refl _

theorem loopsLeft_append (nodes more : List Node) :
    loopsLeft first second (nodes ++ more) = loopsLeft first second nodes ++ loopsLeft first second more := by
  unfold loopsLeft
  split
  · rfl
  · exact loops_append ..

theorem Level.append {more rest : List Node} (level : Level s before t behind) (same : AsMany more rest) :
    Level s (before ++ more) t (behind ++ rest) := by
  intro hint
  have here := level hint
  have there := same hint
  rw [uses_append, uses_append]
  omega

theorem Aligned.append (joins : Joins both first second) (aligned : Aligned first s before u later t behind)
    {nodes : List Node} (left : AsMany passed (loopsLeft first second nodes)) :
    Aligned first s (before ++ loops first nodes) u (later ++ passed) t (behind ++ loops both nodes) := by
  refine ⟨fun rule => ?_, fun rule => ?_⟩
  · rw [loops_congr (show Rule.forLoopName ∈ first ↔ Rule.forLoopName ∈ both from
      iff_of_true rule ((joins _).mpr (.inl rule)))]
    exact (aligned.early rule).append (.refl _)
  · rw [loopsLeft, if_neg rule] at left
    rw [loops_congr (show Rule.forLoopName ∈ both ↔ Rule.forLoopName ∈ second from
      (joins _).trans (or_iff_right rule))]
    exact (aligned.late rule).append left

end Positions

def again (rules : List String) (s : NameSupply) (before : List Node) : Replacement → Replacement
  | .value (.node n) => lowered rules s before n
  | .splice vs => .splice (items rules s before vs)
  | r => r

-- After a pass with the first rules, one with the second gives what one with both gives, and finds the loops that
-- were left to it.
structure Fuses (first second both : List String) (s u t : NameSupply) (n : Node) : Prop where
  same {before later behind : List Node} : Aligned first s before u later t behind →
    again second u later (lowered first s before n) = lowered both t behind n
  uses {before later behind : List Node} : Aligned first s before u later t behind →
    AsMany (loops second (Value.postorderAll (lowered first s before n).elements)) (loopsLeft first second n.postorder)

section Fusing

variable {first second both : List String} {s u t : NameSupply} {before later behind : List Node} {n : Node}
  (joins : Joins both first second)

theorem again_elements (rules : List String) (s : NameSupply) (before : List Node) (r : Replacement) :
    items rules s before r.elements = (again rules s before r).elements := by
  cases r with
  | value v =>
    cases v with
    | node n => exact List.append_nil _
    | _ => rfl
  | _ => rfl

include joins

theorem items_fuse {vs : List Value} (below : ∀ n, .node n ∈ vs → Fuses first second both s u t n)
    (aligned : Aligned first s before u later t behind) :
    items second u later (items first s before vs) = items both t behind vs ∧
      AsMany (loops second (Value.postorderAll (items first s before vs)))
        (loopsLeft first second (Value.postorderAll vs)) := by
  induction vs generalizing before later behind with
  | nil => exact ⟨rfl, nothing_left⟩
  | cons v rest ih =>
    have others := fun n member => below n (List.mem_cons_of_mem _ member)
    have element : items second u later (element first s before v) = element both t behind v ∧
        AsMany (loops second (Value.postorderAll (element first s before v)))
          (loopsLeft first second v.postorderElement) := by
      cases v with
      | node n =>
        have fuses := below n (List.mem_cons_self ..)
        refine ⟨(again_elements second u later _).trans ?_, fuses.uses aligned⟩
        exact congrArg Replacement.elements (fuses.same aligned)
      | _ => exact ⟨rfl, nothing_left⟩
    obtain ⟨same, uses⟩ := ih others (aligned.append joins element.2)
    rw [items, items_append, element.1, same, Value.postorderAll_append, loops_append, Value.postorderAll,
      loopsLeft_append]
    exact ⟨rfl, element.2.append uses⟩

theorem slot_fuses {schema : Schema} {f : Field} (member : schema ∈ coreRegistry.schemas) (field : f ∈ schema.fields)
    {held : Slot} (typed : held.Typed coreRegistry f) (below : ∀ c ∈ held.children, Fuses first second both s u t c)
    (aligned : Aligned first s before u later t behind) :
    slot second u later (slot first s before held) = slot both t behind held ∧
      AsMany (loops second (slot first s before held).postorder) (loopsLeft first second held.postorder) := by
  cases held with
  | value v =>
    have elements : ∀ vs, v.items? = some vs →
        items second u later (items first s before vs) = items both t behind vs ∧
          AsMany (loops second (Value.postorderAll (items first s before vs)))
            (loopsLeft first second (Value.postorderAll vs)) := fun vs found =>
      items_fuse joins (fun c inside => below c (Value.mem_children.mpr (.inr ⟨vs, found, inside⟩))) aligned
    cases v with
    | node c =>
      have fuses := below c (List.mem_singleton_self _)
      have other := Desugarer.unreplaced_field member field typed.2 typed.1
      have stays : lowered first s before c = .ofNode (node first s before c) :=
        lowered_left (reading_other other) before
      have same := fuses.same aligned
      have uses := fuses.uses aligned
      rw [stays] at same uses
      change lowered second u later (node first s before c) = _ at same
      rw [lowered_left (reading_other (by rwa [node_kind])), lowered_left (reading_other other)] at same
      refine ⟨?_, ?_⟩
      · exact congrArg Slot.value (Replacement.value.inj same)
      · rwa [Replacement.postorder_ofNode] at uses
    | list vs => exact ⟨congrArg (fun vs => Slot.value (.list vs)) (elements vs rfl).1, (elements vs rfl).2⟩
    | tuple vs => exact ⟨congrArg (fun vs => Slot.value (.tuple vs)) (elements vs rfl).1, (elements vs rfl).2⟩
    | _ => exact ⟨rfl, nothing_left⟩
  | _ => exact ⟨rfl, nothing_left⟩

theorem slots_fuse {schema : Schema} (member : schema ∈ coreRegistry.schemas) {fs : List Field} {ss : List Slot}
    (fields : ∀ f ∈ fs, f ∈ schema.fields) (typed : Slot.AllTyped coreRegistry fs ss)
    (below : ∀ held ∈ ss, ∀ c ∈ held.children, Fuses first second both s u t c)
    (aligned : Aligned first s before u later t behind) :
    slots second u later (slots first s before ss) = slots both t behind ss ∧
      AsMany (loops second (Slot.postorderAll (slots first s before ss)))
        (loopsLeft first second (Slot.postorderAll ss)) := by
  induction fs generalizing ss before later behind with
  | nil =>
    cases Slot.allTyped_nil typed
    exact ⟨rfl, nothing_left⟩
  | cons f fs ih =>
    obtain ⟨held, rest, rfl, one, others⟩ := Slot.allTyped_cons typed
    rw [List.forall_mem_cons] at fields below
    obtain ⟨same, uses⟩ := slot_fuses joins member fields.1 one below.1 aligned
    obtain ⟨sameRest, usesRest⟩ := ih fields.2 others below.2 (aligned.append joins uses)
    rw [slots, slots, slots, same, sameRest, Slot.postorderAll, Slot.postorderAll, loops_append, loopsLeft_append]
    exact ⟨rfl, uses.append usesRest⟩

theorem reading_joins (unread : reading? first n = none) : reading? both n = reading? second n := by
  cases chosen : Rule.for? n with
  | none => rw [reading_unnamed (by simp [chosen]), reading_unnamed (by simp [chosen])]
  | some rule =>
    by_cases inSecond : rule.name ∈ second
    · exact reading_named chosen ((joins _).mpr (.inr inSecond)) inSecond
    have notSecond : reading? second n = none := reading_unnamed (by simpa [chosen] using inSecond)
    by_cases inFirst : rule.name ∈ first
    · rw [notSecond, reading_named chosen ((joins _).mpr (.inl inFirst)) inFirst, unread]
    · have notBoth : rule.name ∉ both := by
        rw [joins]
        simp [inFirst, inSecond]
      rw [notSecond, reading_unnamed (by simpa [chosen] using notBoth)]

theorem place_second (unread : reading? first n = none) (late : n.kind = "For" → Level u later t behind) :
    place second u later n = place both t behind n := by
  unfold place
  rw [reading_joins joins unread]
  cases read : reading? second n with
  | none => rfl
  | some reading =>
    cases reading with
    | loop parts =>
      have kind : n.kind = "For" := by
        rcases reading_cases read with
          ⟨kind, -⟩ | ⟨-, -, _, _, _, _, -, -, -, -, -, impossible⟩ | ⟨-, -, _, -, impossible⟩
        · exact kind
        · cases impossible
        · cases impossible
      simp only [loopNames_position (late kind)]
    | _ => rfl

theorem single_fuses {name : String} {m : Node} (rule : name ∈ first) (other : n.kind ≠ "For")
    (bare : ∀ child ∈ n.children, child.Inert) (inert : m.Inert)
    (becomes : ∀ others s before, name ∈ others → lowered others s before n = .ofNode m) :
    Fuses first second both s u t n := by
  refine ⟨fun {before later behind} aligned => ?_, fun {before later behind} aligned => ?_⟩
  · rw [becomes _ _ _ rule, becomes _ _ _ ((joins _).mpr (.inl rule))]
    exact lowered_same (inert_unread second inert) later
  · have emitted : loops second m.postorder = [] := loops_inert inert
    have gone : loops second n.postorder = [] := by
      rw [Node.postorder_beneath, loops_append, loops_children bare, loops_one]
      simp [other]
    rw [becomes _ _ _ rule, Replacement.postorder_ofNode, emitted, loopsLeft, gone]
    split <;> exact .refl _

section Nodes

variable (typed : n.WellTyped coreRegistry) (below : ∀ c ∈ n.children, Fuses first second both s u t c)

include typed below

theorem node_fuses (aligned : Aligned first s before u later t behind) :
    node second u later (node first s before n) = node both t behind n ∧
      AsMany (loops second (node first s before n).beneath) (loopsLeft first second n.beneath) := by
  obtain ⟨same, uses⟩ := slots_fuse joins typed.member (fun _ => id)
    (Slot.allTyped_index.mpr (Node.wellTyped_index.mp typed).2)
    (fun held slot c inside => below c (Node.mem_children.mpr ⟨held, slot, inside⟩)) aligned
  rw [node_slots, node_slots (n := n), node_slots (n := n)]
  exact ⟨congrArg (Node.mk n.schema) same, uses⟩

theorem left_fuses (readable : Readable first n) (unread : reading? first n = none) :
    Fuses first second both s u t n := by
  have notLoop : n.kind = "For" → Rule.forLoopName ∉ first := fun kind rule =>
    readable .forLoop (by simp [Rule.for?, kind]) rule unread
  refine ⟨fun {before later behind} aligned => ?_, fun {before later behind} aligned => ?_⟩
  · obtain ⟨rebuilt, uses⟩ := node_fuses joins typed below aligned
    rw [lowered_left unread]
    change place second u (later ++ loops second (node first s before n).beneath)
        (node second u later (node first s before n)) =
      place both t (behind ++ loops both n.beneath) (node both t behind n)
    rw [rebuilt]
    refine place_second joins (unread_rebuilt unread) fun kind => ?_
    rw [node_kind] at kind
    exact (aligned.append joins uses).late (notLoop kind)
  · obtain ⟨-, uses⟩ := node_fuses joins typed below aligned
    rw [lowered_left unread, Replacement.postorder_ofNode, Node.postorder_beneath, Node.postorder_beneath,
      loops_append, loopsLeft_append]
    refine uses.append ?_
    unfold loopsLeft
    rw [loops_one, loops_one, node_kind]
    by_cases kind : n.kind = "For"
    · rw [if_neg (notLoop kind)]
      split
      · exact .one node_hasElse
      · exact .refl _
    · simp [kind, AsMany.refl]

theorem loop_fuses {target iter : Node} (rule : Rule.forLoopName ∈ first) (schema : n.schema = Core.forLoop)
    (targeted : n.nodeAt? "target" = some target) (iterated : n.nodeAt? "iter" = some iter) (ofTarget : target.Inert)
    (ofIter : iter.Inert) : Fuses first second both s u t n := by
  have ruleBoth : Rule.forLoopName ∈ both := (joins _).mpr (.inl rule)
  have elements : ∀ name, ∀ c, .node c ∈ n.itemsAt name → Fuses first second both s u t c :=
    fun name c member => below c (Node.itemsAt_child member)
  have flagged : ∀ {earlier before}, (loopNames s earlier n.hasElse).exhausted = none →
      items first s before (n.itemsAt "orelse") = [] := by
    intro earlier before undrawn
    refine items_nil.mpr ?_
    simpa [loopNames, Node.hasElse] using undrawn
  refine ⟨fun {before later behind} aligned => ?_, fun {before later behind} aligned => ?_⟩
  · obtain ⟨body, inBody⟩ := items_fuse joins (elements "body") aligned
    obtain ⟨orelse, inOrelse⟩ := items_fuse joins (elements "orelse") (aligned.append joins inBody)
    have level := ((aligned.append joins inBody).append joins inOrelse).early rule
    rw [List.append_assoc, List.append_assoc] at level
    rw [lowered_loop typed schema rule targeted iterated, lowered_loop typed schema ruleBoth targeted iterated,
      ← loopNames_position level, ← body, ← orelse]
    exact congrArg Replacement.splice (loop_again second u later ofTarget ofIter flagged).1
  · obtain ⟨-, inBody⟩ := items_fuse joins (elements "body") aligned
    obtain ⟨-, inOrelse⟩ := items_fuse joins (elements "orelse") (aligned.append joins inBody)
    have uses := inBody.append inOrelse
    rw [← (loop_again second s [] ofTarget ofIter flagged).2] at uses
    rw [lowered_loop typed schema rule targeted iterated]
    simp only [loopsLeft, if_pos rule] at uses ⊢
    exact uses

end Nodes

-- The induction is on the tree, along what the first pass does with a node.
theorem fuses (n : Node) : n.WellTyped coreRegistry → (∀ m ∈ n.visited, Readable first m) →
    Fuses first second both s u t n := by
  induction n using Node.children_induct with
  | step n ih =>
    intro typed readable
    have below : ∀ c ∈ n.children, Fuses first second both s u t c := by
      intro c inside
      refine ih c inside (Node.child_typed typed inside) fun m met => ?_
      exact readable m (Node.mem_visited.mpr (.inr ⟨c, inside, met⟩))
    cases treated first typed with
    | left unread => exact left_fuses joins typed below (readable n n.self_visited) unread
    | loop rule schema targeted iterated ofTarget ofIter =>
      exact loop_fuses joins typed below rule schema targeted iterated ofTarget ofIter
    | single rule read other bare inert becomes => exact single_fuses joins rule other bare inert becomes

end Fusing

end Reference

section Twice

open Reference (Joins lowered left_from left_stays treated)

variable {first second both rules : List String} {s : NameSupply} {n root t : Node} (joins : Joins both first second)

theorem readable_rebuilt {others : List String} {before : List Node} :
    Readable rules (Reference.node others s before n) ↔ Readable rules n := by
  unfold Readable
  rw [Rule.for_alike (Reference.node_alike before)]
  simp only [ne_eq, ← Option.isNone_iff_eq_none, ← Option.not_isSome, Reference.reading_rebuilt]

theorem root_kind (typed : root.WellTyped coreRegistry) (becomes : lowered rules s [] root = .ofNode t) :
    t.kind = "For" ↔ root.kind = "For" := by
  cases treated rules typed with
  | left unread =>
    rw [Reference.lowered_left unread] at becomes
    cases becomes
    rw [Reference.node_kind]
  | loop rule schema targeted iterated ofTarget ofIter =>
    rw [Reference.lowered_loop typed schema rule targeted iterated] at becomes
    cases becomes
  | single rule read other below inert emitted =>
    rw [emitted _ _ _ rule] at becomes
    cases becomes
    refine iff_of_false (fun kind => ?_) other
    exact inert _ (Node.self_visited _) (by simp [kind, Core.replaced])

include joins

theorem readable_joins : Readable both n ↔
    Readable first n ∧ (Reference.reading? first n = none → Readable second n) := by
  constructor
  · intro readable
    refine ⟨fun rule chosen named => ?_, fun _ rule chosen named => ?_⟩
    · have inBoth := (joins _).mpr (.inl named)
      rw [Reference.reading_named chosen named inBoth]
      exact readable rule chosen inBoth
    · have inBoth := (joins _).mpr (.inr named)
      rw [Reference.reading_named chosen named inBoth]
      exact readable rule chosen inBoth
  · rintro ⟨ofFirst, ofSecond⟩ rule chosen named
    by_cases inFirst : rule.name ∈ first
    · rw [Reference.reading_named chosen named inFirst]
      exact ofFirst rule chosen inFirst
    · have inSecond := ((joins _).mp named).resolve_left inFirst
      have unread : Reference.reading? first n = none := Reference.reading_unnamed fun other same => by
        cases chosen.symm.trans same
        exact inFirst
      rw [Reference.reading_named chosen named inSecond]
      exact ofSecond unread rule chosen inSecond

theorem rewritable_joins (typed : root.WellTyped coreRegistry) (rewritable : Rewritable first root)
    (becomes : lowered first s [] root = .ofNode t) : Rewritable second t ↔ Rewritable both root := by
  have kinds := root_kind typed becomes
  constructor
  · intro after
    refine ⟨fun kind rule => ?_, fun m met => ?_⟩
    · rcases (joins _).mp rule with inFirst | inSecond
      · exact rewritable.single kind inFirst
      · exact after.single (kinds.mpr kind) inSecond
    · refine (readable_joins joins).mpr ⟨rewritable.readable m met, fun unread rule chosen => ?_⟩
      obtain ⟨behind, stays⟩ := left_stays root typed [] m met (replaced_chosen chosen) unread
      rw [becomes, Replacement.visited_ofNode] at stays
      exact readable_rebuilt.mp (after.readable _ stays) rule chosen
  · intro together
    refine ⟨fun kind rule => ?_, fun x met rule chosen => ?_⟩
    · exact together.single (kinds.mp kind) ((joins _).mpr (.inr rule))
    have there : x ∈ (lowered first s [] root).visited := by rwa [becomes, Replacement.visited_ofNode]
    obtain ⟨m, inside, unread, behind, rfl⟩ := left_from root typed [] x there (replaced_chosen chosen)
    have readable := ((readable_joins joins).mp (together.readable m inside)).2 unread
    exact readable_rebuilt.mpr readable rule chosen

end Twice

-- Two outcomes succeed together, and then with one tree and with the supply as far for every hint.
def Agree (one other : Except RewriteError Node × NameSupply) : Prop :=
  ((∃ t, one.1 = .ok t) ↔ ∃ t, other.1 = .ok t) ∧
    ∀ t u, one.1 = .ok t → other.1 = .ok u → t = u ∧ ∀ hint, one.2.issued hint = other.2.issued hint

theorem Agree.trans {one other last : Except RewriteError Node × NameSupply} (first : Agree one other)
    (second : Agree other last) : Agree one last := by
  refine ⟨first.1.trans second.1, fun t v ran last => ?_⟩
  obtain ⟨u, between⟩ := first.1.mp ⟨t, ran⟩
  obtain ⟨rfl, counts⟩ := first.2 t u ran between
  obtain ⟨rfl, further⟩ := second.2 t v between last
  exact ⟨rfl, fun hint => (counts hint).trans (further hint)⟩

theorem Agree.bind {c : Rewriting Node} {f g : Node → Rewriting Node} {s : NameSupply}
    (rest : ∀ m u, c.run s = (.ok m, u) → Agree ((f m).run u) ((g m).run u)) :
    Agree ((c >>= f).run s) ((c >>= g).run s) := by
  rw [Walk.run_bind, Walk.run_bind]
  cases ran : c.run s with
  | mk outcome u =>
    cases outcome with
    | ok m => exact rest m u ran
    | error e => exact ⟨Iff.rfl, fun t v impossible => by cases impossible⟩

namespace Desugarer

open Reference (Joins Aligned lowered)

variable {d : Desugarer} {names first second : List String} {root : Node} {s : NameSupply}

theorem rewrite_made (made : ofNames coreRegistry names = .ok d) (typed : root.WellTyped coreRegistry)
    (s : NameSupply) :
    ((∃ t, ((d.rewrite root).run s).1 = .ok t) ↔ Rewritable names root) ∧
    ∀ t, ((d.rewrite root).run s).1 = .ok t → t.WellTyped coreRegistry ∧ lowered names s [] root = .ofNode t ∧
      ∀ hint, ((d.rewrite root).run s).2.issued hint =
        s.issued hint + Reference.uses hint (Reference.loops names root.postorder) := by
  obtain ⟨indexed, named⟩ := ofNames_made made
  obtain ⟨_, same, builtin, registry⟩ := ofNames_builtin (r := coreRegistry) (ofNames_known made)
  cases made.symm.trans same
  have succeeds := rewrite_exact builtin indexed registry typed s
  have follows := Reference.rewrite_follows builtin registry indexed typed s
  have ends := rewrite_ends builtin registry typed s
  rw [named] at succeeds follows
  generalize (d.rewrite root).run s = done at succeeds follows ends
  obtain ⟨outcome, rest⟩ := done
  refine ⟨succeeds, fun t ran => ?_⟩
  cases ran
  exact ⟨ends.1, follows.1, follows.2.counted⟩

theorem twice_agree {d₁ d₂ : Desugarer} (madeFirst : ofNames coreRegistry first = .ok d₁)
    (madeSecond : ofNames coreRegistry second = .ok d₂) (made : ofNames coreRegistry names = .ok d)
    (joins : Joins names first second) (typed : root.WellTyped coreRegistry) (s : NameSupply) :
    Agree ((d₁.rewrite root >>= d₂.rewrite).run s) ((d.rewrite root).run s) := by
  obtain ⟨succeedsFirst, givesFirst⟩ := rewrite_made madeFirst typed s
  obtain ⟨succeeds, gives⟩ := rewrite_made made typed s
  rw [Walk.run_bind]
  generalize (d₁.rewrite root).run s = begun at succeedsFirst givesFirst ⊢
  obtain ⟨outcome, u⟩ := begun
  cases outcome with
  | error e =>
    -- What the first pass lacks, the single one lacks as well.
    have refused : ¬Rewritable names root := fun together => by
      have rewritable : Rewritable first root :=
        ⟨fun kind rule => together.single kind ((joins _).mpr (.inl rule)),
          fun m met => ((readable_joins joins).mp (together.readable m met)).1⟩
      obtain ⟨t, impossible⟩ := succeedsFirst.mpr rewritable
      cases impossible
    refine ⟨iff_of_false nofun (fun ran => refused (succeeds.mp ran)), nofun⟩
  | ok m =>
    have rewritable := succeedsFirst.mp ⟨m, rfl⟩
    obtain ⟨typedAfter, becomes, counted⟩ := givesFirst m rfl
    obtain ⟨succeedsSecond, givesSecond⟩ := rewrite_made madeSecond typedAfter u
    refine ⟨?_, fun t v ran single => ?_⟩
    · rw [succeedsSecond, succeeds]
      exact rewritable_joins joins typed rewritable becomes
    · obtain ⟨-, after, countedSecond⟩ := givesSecond t ran
      obtain ⟨-, whole, countedWhole⟩ := gives v single
      have aligned : Aligned first s [] u [] s [] := by
        refine ⟨fun _ _ => rfl, fun absent hint => ?_⟩
        rw [counted, Reference.loops_none absent]
        rfl
      have fuses := Reference.fuses (s := s) (u := u) (t := s) joins root typed rewritable.readable
      have same := fuses.same aligned
      have uses := fuses.uses aligned
      rw [becomes] at same uses
      change lowered second u [] m = _ at same
      rw [after, whole] at same
      cases same
      rw [Replacement.postorder_ofNode] at uses
      have further := aligned.append joins uses
      refine ⟨rfl, fun hint => ?_⟩
      rw [countedSecond, countedWhole]
      by_cases rule : Rule.forLoopName ∈ first
      · have none := uses hint
        rw [Reference.loopsLeft, if_pos rule] at none
        rw [counted, none]
        exact further.early rule hint
      · exact further.late rule hint

-- Passes with several choices of rules, one after the other, on one supply.
def staged : List (List String) → Node → Rewriting Node
  | [], root => return root
  | names :: rest, root => do
    let d ← Rewriting.ofExcept (ofNames coreRegistry names)
    let t ← d.rewrite root
    staged rest t

theorem ruleless_agree (made : ofNames coreRegistry names = .ok d) (none : ∀ name, name ∉ names)
    (typed : root.WellTyped coreRegistry) (s : NameSupply) :
    Agree (.ok root, s) ((d.rewrite root).run s) := by
  obtain ⟨succeeds, gives⟩ := rewrite_made made typed s
  have rewritable : Rewritable names root :=
    ⟨fun _ => none _, fun m _ rule _ named => absurd named (none _)⟩
  refine ⟨iff_of_true ⟨root, rfl⟩ (succeeds.mpr rewritable), fun t u same ran => ?_⟩
  obtain ⟨-, becomes, counted⟩ := gives u ran
  have unread : Reference.Unread names root := fun m _ => Reference.reading_unnamed fun rule _ => none _
  rw [Reference.lowered_same unread] at becomes
  cases same
  cases becomes
  refine ⟨rfl, fun hint => ?_⟩
  rw [counted, Reference.loops_none (none _)]
  rfl

-- Passes with lists of built-in rules agree with a single pass whose list names the same rules, in any order and
-- however often: they succeed together, with the same tree and the same numbers of names drawn.
theorem stages_agree (lists : List (List String)) (known : ∀ list ∈ lists, ∀ name ∈ list, (Rule.ofName? name).isSome)
    (same : ∀ name, name ∈ names ↔ ∃ list ∈ lists, name ∈ list) (typed : root.WellTyped coreRegistry)
    (s : NameSupply) :
    ∃ d, ofNames coreRegistry names = .ok d ∧ Agree ((staged lists root).run s) ((d.rewrite root).run s) := by
  have knownAll : ∀ name ∈ names, (Rule.ofName? name).isSome := by
    intro name member
    obtain ⟨list, inside, member⟩ := (same name).mp member
    exact known list inside name member
  obtain ⟨d, made, -, -⟩ := ofNames_builtin (r := coreRegistry) knownAll
  refine ⟨d, made, ?_⟩
  induction lists generalizing names root s d with
  | nil => exact ruleless_agree made (fun name member => by simpa using (same name).mp member) typed s
  | cons first lists ih =>
    rw [List.forall_mem_cons] at known
    obtain ⟨d₁, madeFirst, -, -⟩ := ofNames_builtin (r := coreRegistry) known.1
    have knownRest : ∀ name ∈ lists.flatten, (Rule.ofName? name).isSome := by
      intro name member
      obtain ⟨list, inside, member⟩ := List.mem_flatten.mp member
      exact known.2 list inside name member
    obtain ⟨d₂, madeRest, -, -⟩ := ofNames_builtin (r := coreRegistry) knownRest
    have joins : Joins names first lists.flatten := by
      intro name
      rw [same, List.mem_flatten]
      simp
    have split : staged (first :: lists) root = d₁.rewrite root >>= staged lists := by
      rw [staged, madeFirst]
      rfl
    rw [split]
    refine .trans (.bind fun m u ran => ?_) (twice_agree madeFirst madeRest made joins typed s)
    have typedAfter := ((rewrite_made madeFirst typed s).2 m (by rw [ran])).1
    exact ih known.2 (fun name => List.mem_flatten) typedAfter u knownRest d₂ madeRest

-- Assertions first, and then loops with what is left of assertions, from a supply that has given names before.
theorem pollingLoop_staged : ∃ d t u, ofNames coreRegistry ["for-loop", "assert"] = .ok d ∧
    (d.rewrite pollingLoop).run ⟨[("__iter", 4)]⟩ = (.ok t, u) ∧
    ∃ v, (staged [["assert"], [], ["assert", "for-loop", "for-loop"]] pollingLoop).run ⟨[("__iter", 4)]⟩ = (.ok t, v) ∧
      ∀ hint, v.issued hint = u.issued hint := by
  obtain ⟨d, made, together, agree⟩ := stages_agree [["assert"], [], ["assert", "for-loop", "for-loop"]] (by decide)
    (show ∀ name, name ∈ ["for-loop", "assert"] ↔
      ∃ list ∈ [["assert"], [], ["assert", "for-loop", "for-loop"]], name ∈ list by simp [or_comm])
    pollingLoop_typed ⟨[("__iter", 4)]⟩
  obtain ⟨_, same, builtin, registry⟩ := ofNames_builtin (r := coreRegistry) (ofNames_known made)
  cases made.symm.trans same
  obtain ⟨t, u, ran⟩ := rewrite_succeeds builtin registry pollingLoop_typed (by decide) (by decide) ⟨[("__iter", 4)]⟩
  refine ⟨d, t, u, made, ran, ?_⟩
  rw [ran] at together agree
  generalize (staged _ pollingLoop).run _ = done at together agree ⊢
  obtain ⟨outcome, v⟩ := done
  obtain ⟨w, first⟩ := together.mpr ⟨t, rfl⟩
  obtain ⟨rfl, counts⟩ := agree w t first rfl
  cases first
  exact ⟨v, rfl, counts⟩

end Desugarer

end TreeLowering
