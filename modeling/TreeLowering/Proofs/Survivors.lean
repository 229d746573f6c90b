import TreeLowering.Proofs.Inert

namespace TreeLowering

theorem Node.inert_mk {schema : Schema} {slots : List Slot} (own : schema.kind ∉ Core.replaced)
    (parts : ∀ held ∈ slots, held.Inert) : (Node.mk schema slots).Inert := by
  refine inert_node own fun child inside => ?_
  obtain ⟨held, slot, inside⟩ := mem_children.mp inside
  exact parts held slot child inside

section Emitted

variable {n target value : Node} {ns : List Node}

@[simp] theorem Slot.inert_unset : Slot.unset.Inert := nofun

@[simp] theorem Slot.inert_str {text : String} : (Slot.value (.str text)).Inert := nofun

@[simp] theorem Slot.inert_bool {b : Bool} : (Slot.value (.bool b)).Inert := nofun

@[simp] theorem Slot.inert_one : (Slot.value (.node n)).Inert ↔ n.Inert := by
  simp [Slot.Inert, Slot.children, Value.children]

@[simp] theorem Slot.inert_list {vs : List Value} :
    (Slot.value (.list vs)).Inert ↔ ∀ n, .node n ∈ vs → n.Inert := by
  simp [Slot.Inert, Slot.children, Value.mem_children, Value.items?]

@[simp] theorem Slot.inert_nodes : (Slot.value (.ofNodes ns)).Inert ↔ ∀ n ∈ ns, n.Inert := by
  simp [Value.ofNodes]

theorem Node.empty_inert {schema : Schema} (own : schema.kind ∉ Core.replaced) : (Node.empty schema).Inert :=
  inert_mk own (by simp)

namespace Lowered

theorem load_inert {id : String} : (load id).Inert :=
  Node.inert_mk (by decide) (by simpa using Node.empty_inert (by decide))

theorem store_inert {id : String} : (store id).Inert :=
  Node.inert_mk (by decide) (by simpa using Node.empty_inert (by decide))

theorem truth_inert {b : Bool} : (truth b).Inert := Node.inert_mk (by decide) (by simp)

theorem assign_inert (ofTarget : target.Inert) (ofValue : value.Inert) : (assign target value).Inert :=
  Node.inert_mk (by decide) (by simpa using ⟨ofTarget, ofValue⟩)

theorem call_inert {func : String} (ofArgs : ∀ n ∈ ns, n.Inert) : (call func ns).Inert :=
  Node.inert_mk (by decide) (by simpa using ⟨load_inert, ofArgs⟩)

theorem spelledOut_inert {id : String} {op : Node} (ofOp : op.Inert) (ofValue : value.Inert) :
    (spelledOut id op value).Inert := by
  have result : (binOp (load id) op value).Inert :=
    Node.inert_mk (by decide) (by simpa using ⟨load_inert, ofOp, ofValue⟩)
  exact assign_inert store_inert result

theorem raiseUnless_inert {test : Node} {msg : Option Node} (ofTest : test.Inert)
    (ofMessage : ∀ m, msg = some m → m.Inert) : (raiseUnless test msg).Inert := by
  have called : (call "AssertionError" msg.toList).Inert := call_inert fun m given => ofMessage m (by simpa using given)
  have raised : (raise (call "AssertionError" msg.toList)).Inert := Node.inert_mk (by decide) (by simpa using called)
  have failed : (negation test).Inert :=
    Node.inert_mk (by decide) (by simpa using ⟨Node.empty_inert (by decide), ofTest⟩)
  exact Node.inert_mk (by decide) (by simpa using ⟨failed, raised⟩)

variable (names : Rule.LoopNames)

theorem flag_inert (b : Bool) : ∀ n ∈ flag names b, n.Inert := by
  intro n member
  obtain ⟨flag, -, rfl⟩ := Option.map_eq_some_iff.mp (Option.mem_toList.mp member)
  exact assign_inert store_inert truth_inert

theorem advance_inert : (advance names).Inert := by
  have next : (call "next" [load names.iterator]).Inert := call_inert (by simpa using load_inert)
  have handled : ∀ n ∈ flag names true ++ [.empty Core.leave], n.Inert := by
    intro n member
    rcases List.mem_append.mp member with raised | last
    · exact flag_inert names true n raised
    · rw [List.mem_singleton.mp last]
      exact Node.empty_inert (by decide)
  have caught : (handler "StopIteration" (flag names true ++ [.empty Core.leave])).Inert :=
    Node.inert_mk (by decide) (by simpa using ⟨load_inert, by simpa using handled⟩)
  exact Node.inert_mk (by decide) (by simpa using ⟨assign_inert store_inert next, caught⟩)

end Lowered

variable {x : Node} {body : List Value} {names : Rule.LoopNames} {parts : Rule.Loop}

theorem body_left {schema : Schema} {last : Slot} (own : schema.kind ∉ Core.replaced) (test : n.Inert)
    (kind : x.kind ∈ Core.replaced)
    (met : x ∈ (Node.mk schema [.value (.node n), .value (.list body), last]).visited) :
    x ∈ Value.visitedAll body ∨ x ∈ last.visited := by
  rcases List.mem_cons.mp met with rfl | below
  · exact absurd kind own
  · have apart : x ∉ n.visited := fun met => test x met kind
    simpa [Slot.visitedAll, Slot.visited, Value.visited, apart] using below

-- What a rule could replace in an emitted loop stands in its body or in its `else` part.
theorem loop_left (target : parts.target.Inert) (iter : parts.iter.Inert) (kind : x.kind ∈ Core.replaced)
    (met : x ∈ (Replacement.ofNodes (Lowered.loop names parts)).visited) :
    x ∈ Value.visitedAll parts.body ∨ x ∈ Value.visitedAll parts.orelse := by
  obtain ⟨n, member, met⟩ := Replacement.visited_ofNodes.mp met
  simp only [Lowered.loop, List.mem_append, List.mem_cons, List.not_mem_nil, or_false] at member
  rcases member with (cleared | rfl | rfl) | tested
  · exact absurd kind (Lowered.flag_inert names false n cleared x met)
  · have called : (Lowered.call "iter" [parts.iter]).Inert := Lowered.call_inert (by simpa using iter)
    exact absurd kind (Lowered.assign_inert Lowered.store_inert called x met)
  · have turning := (body_left (by decide) Lowered.truth_inert kind met).resolve_right List.not_mem_nil
    obtain ⟨c, inside, met⟩ := Value.mem_visitedAll.mp turning
    simp only [Lowered.turn, List.mem_cons, Value.node.injEq] at inside
    rcases inside with rfl | rfl | inside
    · exact absurd kind (Lowered.advance_inert names x met)
    · exact absurd kind (Lowered.assign_inert target Lowered.load_inert x met)
    · exact .inl (Value.mem_visitedAll.mpr ⟨c, inside, met⟩)
  · obtain ⟨flag, -, rfl⟩ := Option.map_eq_some_iff.mp (Option.mem_toList.mp tested)
    exact .inr ((body_left (by decide) Lowered.load_inert kind met).resolve_right List.not_mem_nil)

end Emitted

namespace Reference

variable {rules others : List String} {s : NameSupply} {n x child : Node} {before : List Node}

theorem reading_named {rule : Rule} (chosen : Rule.for? n = some rule) (first : rule.name ∈ rules)
    (second : rule.name ∈ others) : reading? rules n = reading? others n := by
  rcases Rule.for_cases chosen with ⟨rfl, kind⟩ | ⟨rfl, kind⟩ | ⟨rfl, kind, -⟩
  · have loops : Rule.forLoopName ∈ rules ∧ Rule.forLoopName ∈ others := ⟨first, second⟩
    simp [reading?, kind, loops]
  · have assertions : Rule.assertName ∈ rules ∧ Rule.assertName ∈ others := ⟨first, second⟩
    simp [reading?, kind, assertions]
  · have augmented : Rule.augAssignName ∈ rules ∧ Rule.augAssignName ∈ others := ⟨first, second⟩
    simp [reading?, kind, augmented]

theorem reading_unnamed (absent : ∀ rule, Rule.for? n = some rule → rule.name ∉ rules) : reading? rules n = none := by
  refine reading_none (Option.filter_eq_none_iff.mpr fun rule chosen named => ?_)
  exact absent rule chosen (List.contains_iff_mem.mp named)

theorem reading_rebuilt (rules : List String) :
    (reading? rules (node others s before n)).isSome = (reading? rules n).isSome := by
  obtain ⟨_, target⟩ := node_nodeAt others s before n "target"
  obtain ⟨_, iter⟩ := node_nodeAt others s before n "iter"
  obtain ⟨_, op⟩ := node_nodeAt others s before n "op"
  obtain ⟨_, value⟩ := node_nodeAt others s before n "value"
  obtain ⟨_, test⟩ := node_nodeAt others s before n "test"
  unfold reading?
  rw [node_kind, target, iter, op, value, test]
  split
  · cases n.nodeAt? "target" <;> cases n.nodeAt? "iter" <;> rfl
  split
  · cases n.nodeAt? "target" with
    | none => rfl
    | some t =>
      simp only [Option.map_some, Option.bind_eq_bind, Option.bind_some, node_kind, node_textAt]
      split
      · cases t.textAt? "id" <;> cases n.nodeAt? "op" <;> cases n.nodeAt? "value" <;> rfl
      · rfl
  split
  · cases n.nodeAt? "test" <;> rfl
  · rfl

theorem unread_rebuilt (unread : reading? rules n = none) : reading? rules (node others s before n) = none := by
  rw [← Option.isNone_iff_eq_none, ← Option.not_isSome, reading_rebuilt, unread]
  rfl

theorem lowered_left (unread : reading? rules n = none) (before : List Node) :
    lowered rules s before n = .ofNode (node rules s before n) := lowered_unread (unread_rebuilt unread)

-- What the rules do with a node: it is left, or it is a loop, or it gives one statement in which nothing is to
-- be replaced, the same wherever its rule is applied.
inductive Treated (rules : List String) (n : Node) : Prop where
  | left (unread : reading? rules n = none) : Treated rules n
  | loop {target iter : Node} (rule : Rule.forLoopName ∈ rules) (schema : n.schema = Core.forLoop)
      (targeted : n.nodeAt? "target" = some target) (iterated : n.nodeAt? "iter" = some iter)
      (ofTarget : target.Inert) (ofIter : iter.Inert) : Treated rules n
  | single {name : String} {m : Node} (rule : name ∈ rules) (read : reading? rules n ≠ none) (other : n.kind ≠ "For")
      (below : ∀ child ∈ n.children, child.Inert) (inert : m.Inert)
      (becomes : ∀ others s before, name ∈ others → lowered others s before n = .ofNode m) : Treated rules n

theorem treated (rules : List String) (typed : n.WellTyped coreRegistry) : Treated rules n := by
  cases read : reading? rules n with
  | none => exact .left read
  | some reading =>
    have inert : ∀ {name child}, (∀ child ∈ n.children, child.Inert) → n.nodeAt? name = some child → child.Inert :=
      fun below found => below _ (Node.nodeAt_child found)
    rcases reading_cases read with
      ⟨kind, rule, target, iter, targeted, iterated, -⟩ |
      ⟨kind, rule, target, id, op, value, targeted, isName, named, operated, valued, -⟩ |
      ⟨kind, rule, test, tested, -⟩
    · have schema := (core_kind (s := Core.forLoop) (by simp [Core.schemas]) typed).mp kind
      exact .loop rule schema targeted iterated (Node.nodeAt_inert typed targeted (by rw [schema]; decide))
        (Node.nodeAt_inert typed iterated (by rw [schema]; decide))
    · have schema := (core_kind (s := Core.augAssign) (by simp [Core.schemas]) typed).mp kind
      have below := Node.expressions_inert typed (by rw [schema]; decide)
      have ofSum : (Lowered.spelledOut id op value).Inert :=
        Lowered.spelledOut_inert (inert below operated) (inert below valued)
      refine .single rule (by simp [read]) (by simp [kind]) below ofSum ?_
      intro others s before rule
      rw [lowered_kept below, place, reading_augmented kind rule targeted isName named operated valued]
    · have schema := (core_kind (s := Core.assertion) (by simp [Core.schemas]) typed).mp kind
      have below := Node.expressions_inert typed (by rw [schema]; decide)
      have ofCheck : (Lowered.raiseUnless test (n.nodeAt? "msg")).Inert :=
        Lowered.raiseUnless_inert (inert below tested) fun m given => inert below given
      refine .single rule (by simp [read]) (by simp [kind]) below ofCheck ?_
      intro others s before rule
      rw [lowered_kept below, place, reading_asserted kind rule tested]

theorem items_from {vs : List Value} (before : List Node) (met : x ∈ Value.visitedAll (items rules s before vs)) :
    ∃ c behind, .node c ∈ vs ∧ x ∈ (lowered rules s behind c).visited := by
  induction vs generalizing before with
  | nil => cases met
  | cons v rest ih =>
    rw [items, Value.visitedAll_append, List.mem_append] at met
    rcases met with first | later
    · cases v with
      | node c => exact ⟨c, before, List.mem_cons_self .., first⟩
      | _ => cases first
    · obtain ⟨c, behind, inside, met⟩ := ih _ later
      exact ⟨c, behind, List.mem_cons_of_mem _ inside, met⟩

theorem slot_from {schema : Schema} {f : Field} {held : Slot} (member : schema ∈ coreRegistry.schemas)
    (field : f ∈ schema.fields) (typed : held.Typed coreRegistry f) (before : List Node)
    (met : x ∈ (slot rules s before held).visited) :
    ∃ c ∈ held.children, ∃ behind, x ∈ (lowered rules s behind c).visited := by
  cases held with
  | value v =>
    obtain ⟨fits, inner⟩ := typed
    have elements : ∀ vs, v.items? = some vs → x ∈ Value.visitedAll (items rules s before vs) →
        ∃ c ∈ (Slot.value v).children, ∃ behind, x ∈ (lowered rules s behind c).visited := by
      intro vs found met
      obtain ⟨c, behind, inside, met⟩ := items_from before met
      exact ⟨c, Value.mem_children.mpr (.inr ⟨vs, found, inside⟩), behind, met⟩
    cases v with
    | node c =>
      have other := Desugarer.unreplaced_field member field inner fits
      refine ⟨c, List.mem_singleton_self _, before, ?_⟩
      rwa [lowered, place_unread (reading_other (by rwa [node_kind])), Replacement.visited_ofNode]
    | list vs => exact elements vs rfl met
    | tuple vs => exact elements vs rfl met
    | _ => cases met
  | _ => cases met

theorem slots_from {ss : List Slot} (before : List Node) (met : x ∈ Slot.visitedAll (slots rules s before ss)) :
    ∃ (index : Nat) (held : Slot) (behind : List Node),
      ss[index]? = some held ∧ x ∈ (slot rules s behind held).visited := by
  induction ss generalizing before with
  | nil => cases met
  | cons first rest ih =>
    rw [slots, Slot.visitedAll, List.mem_append] at met
    rcases met with here | later
    · exact ⟨0, first, before, rfl, here⟩
    · obtain ⟨index, held, behind, place, met⟩ := ih _ later
      exact ⟨index + 1, held, behind, place, met⟩

theorem node_from (typed : n.WellTyped coreRegistry) (met : x ∈ (node rules s before n).visited) :
    x = node rules s before n ∨ ∃ c ∈ n.children, ∃ behind, x ∈ (lowered rules s behind c).visited := by
  rw [node_slots] at met ⊢
  refine (List.mem_cons.mp met).imp_right fun below => ?_
  obtain ⟨index, held, behind, place, met⟩ := slots_from before below
  have bound : index < n.schema.fields.length := by
    rw [← typed.sized]
    exact (List.getElem?_eq_some_iff.mp place).1
  have field := List.getElem?_eq_getElem bound
  obtain ⟨c, inside, behind, met⟩ := slot_from typed.member (List.mem_of_getElem? field)
    ((Node.wellTyped_index.mp typed).2.2 index _ held field place) behind met
  exact ⟨c, Node.mem_children.mpr ⟨held, List.mem_of_getElem? place, inside⟩, behind, met⟩

-- What a rule could still replace is a node of the tree that was not read, rebuilt.
theorem left_from (n : Node) : n.WellTyped coreRegistry → ∀ before x, x ∈ (lowered rules s before n).visited →
    x.kind ∈ Core.replaced → ∃ m ∈ n.visited, reading? rules m = none ∧ ∃ behind, x = node rules s behind m := by
  induction n using Node.children_induct with
  | step n ih =>
    intro typed before x met kind
    have below : ∀ c ∈ n.children, ∀ behind, x ∈ (lowered rules s behind c).visited →
        ∃ m ∈ n.visited, reading? rules m = none ∧ ∃ behind, x = node rules s behind m := by
      intro c inside behind met
      obtain ⟨m, there, unread, same⟩ := ih c inside (Node.child_typed typed inside) behind x met kind
      exact ⟨m, Node.mem_visited.mpr (.inr ⟨c, inside, there⟩), unread, same⟩
    cases treated rules typed with
    | left unread =>
      rw [lowered_left unread, Replacement.visited_ofNode] at met
      rcases node_from typed met with rfl | ⟨c, inside, behind, met⟩
      · exact ⟨n, n.self_visited, unread, before, rfl⟩
      · exact below c inside behind met
    | loop rule schema targeted iterated ofTarget ofIter =>
      rw [lowered_loop typed schema rule targeted iterated] at met
      rcases loop_left ofTarget ofIter kind met with met | met
      · obtain ⟨c, behind, inside, met⟩ := items_from _ met
        exact below c (Node.itemsAt_child inside) behind met
      · obtain ⟨c, behind, inside, met⟩ := items_from _ met
        exact below c (Node.itemsAt_child inside) behind met
    | single rule read other below inert becomes =>
      rw [becomes _ _ _ rule, Replacement.visited_ofNode] at met
      exact absurd kind (inert x met)

theorem left_stays (n : Node) : n.WellTyped coreRegistry → ∀ before m, m ∈ n.visited → m.kind ∈ Core.replaced →
    reading? rules m = none → ∃ behind, node rules s behind m ∈ (lowered rules s before n).visited := by
  induction n using Node.children_induct with
  | step n ih =>
    intro typed before m met kind unread
    have carried : ∀ c ∈ n.children, m ∈ c.visited → (∃ behind, (lowered rules s behind c).visited ⊆
        (lowered rules s before n).visited) → ∃ behind, node rules s behind m ∈ (lowered rules s before n).visited := by
      rintro c inside met ⟨behind, part⟩
      obtain ⟨there, stays⟩ := ih c inside (Node.child_typed typed inside) behind m met kind unread
      exact ⟨there, part stays⟩
    cases treated rules typed with
    | left unread =>
      have stands : lowered rules s before n = .ofNode (node rules s before n) := lowered_left unread before
      rw [stands, Replacement.visited_ofNode] at carried ⊢
      rcases Node.mem_visited.mp met with rfl | ⟨c, inside, met⟩
      · exact ⟨before, Node.self_visited _⟩
      · exact carried c inside met (visited_child rules s typed inside before)
    | loop rule schema targeted iterated ofTarget ofIter =>
      obtain ⟨sameTarget, sameIter, body, orelse, beneath⟩ := loop_rebuilt rules s typed schema before
      rcases Node.mem_visited.mp met with rfl | ⟨c, inside, met⟩
      · rw [reading_loop (loop_kind schema) rule targeted iterated] at unread
        cases unread
      · refine carried c inside met ?_
        rw [lowered_loop typed schema rule targeted iterated, ← body, ← orelse]
        refine loop_covers typed schema (sameTarget.trans targeted) (sameIter.trans iterated) (fun undrawn => ?_) inside
        have flag : (node rules s before n).hasElse = n.hasElse := node_hasElse
        rw [← flag] at undrawn
        simpa [loopNames, Node.hasElse] using undrawn
    | single rule read other below inert becomes =>
      rcases Node.mem_visited.mp met with rfl | ⟨c, inside, met⟩
      · exact absurd unread read
      · exact absurd kind (below c inside m met)

end Reference

-- A rule that is to replace a node can read what it needs off it.
def Readable (rules : List String) (n : Node) : Prop :=
  ∀ rule, Rule.for? n = some rule → rule.name ∈ rules → Reference.reading? rules n ≠ none

structure Rewritable (rules : List String) (root : Node) : Prop where
  single : root.kind = "For" → Rule.forLoopName ∉ rules
  readable : ∀ m ∈ root.visited, Readable rules m

theorem replaced_chosen {n : Node} {rule : Rule} (chosen : Rule.for? n = some rule) : n.kind ∈ Core.replaced := by
  rcases Rule.for_cases chosen with ⟨-, kind⟩ | ⟨-, kind⟩ | ⟨-, kind, -⟩ <;> simp [kind, Core.replaced]

namespace Desugarer

open Reference (lowered treated)

variable {d : Desugarer} {root : Node} {e : RewriteError}

theorem unset_reads {n : Node} {name : String} (missing : n.isSet name = false) :
    n.nodeAt? name = none ∧ n.textAt? name = none := by
  unfold Node.isSet at missing
  unfold Node.nodeAt? Node.textAt? Node.get?
  cases slot : n.slot? name with
  | none => simp
  | some held => cases held <;> simp_all [Slot.isUnset, Slot.node?, Slot.value?]

theorem lacks_unreadable (lacks : d.Lacks root e) : ∃ m ∈ root.visited, ¬Readable d.ruleNames m := by
  have named : ∀ {rule : Rule}, rule ∈ d.rules → rule.name ∈ d.ruleNames := fun member => List.mem_map_of_mem member
  cases lacks with
  | @loop n field rule met kind part missing =>
    refine ⟨n, met, fun readable => readable .forLoop (by simp [Rule.for?, kind]) (named rule) ?_⟩
    have loops : Rule.forLoopName ∈ d.ruleNames := named rule
    simp only [List.mem_cons, List.not_mem_nil, or_false] at part
    rcases part with rfl | rfl
    · simp [Reference.reading?, kind, loops, unset_reads missing]
    · simp [Reference.reading?, kind, loops, unset_reads missing]
  | @augmented n t field rule met kind target isName part missing =>
    refine ⟨n, met, fun readable => readable .augAssign (by simp [Rule.for?, kind, target, isName]) (named rule) ?_⟩
    have augmented : Rule.augAssignName ∈ d.ruleNames := named rule
    simp only [List.mem_cons, List.not_mem_nil, or_false] at part
    rcases part with rfl | rfl
    · simp [Reference.reading?, kind, augmented, target, unset_reads missing]
    · simp [Reference.reading?, kind, augmented, target, unset_reads missing]
  | @nameless n t rule met kind target isName missing =>
    refine ⟨n, met, fun readable => readable .augAssign (by simp [Rule.for?, kind, target, isName]) (named rule) ?_⟩
    have augmented : Rule.augAssignName ∈ d.ruleNames := named rule
    simp [Reference.reading?, kind, augmented, target, isName, unset_reads missing]
  | @untested n rule met kind missing =>
    refine ⟨n, met, fun readable => readable .assertion (by simp [Rule.for?, kind]) (named rule) ?_⟩
    have assertions : Rule.assertName ∈ d.ruleNames := named rule
    simp [Reference.reading?, kind, assertions, unset_reads missing]

theorem rewrite_exact (builtin : d.Builtin) (indexed : d.Indexed) (registry : d.registry = coreRegistry)
    (typed : root.WellTyped coreRegistry) (s : NameSupply) :
    (∃ t, ((d.rewrite root).run s).1 = .ok t) ↔ Rewritable d.ruleNames root := by
  constructor
  · intro succeeded
    obtain ⟨t, ran⟩ := succeeded
    have follows := Reference.rewrite_follows builtin registry indexed typed s
    have ends := rewrite_ends builtin registry typed s
    generalize (d.rewrite root).run s = done at ran follows ends
    obtain ⟨outcome, rest⟩ := done
    cases ran
    obtain ⟨becomes, -⟩ := follows
    obtain ⟨typedAfter, settled⟩ := ends
    -- A node that was not read would be found in the result, where nothing is left for a rule.
    have readable : ∀ m ∈ root.visited, Readable d.ruleNames m := by
      intro m met rule chosen named unread
      obtain ⟨behind, stays⟩ := Reference.left_stays root typed [] m met (replaced_chosen chosen) unread
      rw [becomes, Replacement.visited_ofNode] at stays
      have matched := findMatch_exact builtin indexed (Node.visited_typed typedAfter stays)
      rw [Rule.for_alike (Reference.node_alike behind), chosen, settled _ stays] at matched
      simp [Option.filter, named] at matched
    refine ⟨fun kind rule => ?_, readable⟩
    have chosen : Rule.for? root = some .forLoop := by simp [Rule.for?, kind]
    cases treated d.ruleNames typed with
    | left unread => exact readable root root.self_visited .forLoop chosen rule unread
    | loop rule schema targeted iterated ofTarget ofIter =>
      rw [Reference.lowered_loop typed schema rule targeted iterated] at becomes
      cases becomes
    | single rule read other below inert becomes => exact other kind
  · intro rewritable
    obtain ⟨rest, ran, -⟩ := Reference.rewrite_lowered builtin registry indexed typed (fun e lacks => by
      obtain ⟨m, met, unreadable⟩ := lacks_unreadable lacks
      exact unreadable (rewritable.readable m met)) s
    have single : ∃ t, lowered d.ruleNames s [] root = .ofNode t := by
      cases treated d.ruleNames typed with
      | left unread => exact ⟨_, Reference.lowered_left unread []⟩
      | loop rule schema targeted iterated ofTarget ofIter =>
        exact absurd rule (rewritable.single (Reference.loop_kind schema))
      | single rule read other below inert becomes => exact ⟨_, becomes _ _ _ rule⟩
    obtain ⟨t, becomes⟩ := single
    refine ⟨t, ?_⟩
    rw [ran, becomes]
    rfl

end Desugarer

end TreeLowering
