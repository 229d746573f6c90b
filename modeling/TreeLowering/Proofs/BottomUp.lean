import TreeLowering.Proofs.Emitted

namespace TreeLowering

section Transformer

variable {σ ε : Type} [OfNodeError ε] (enter : Node → Walk σ ε (Visit σ ε))

def Slot.descend (kind : String) (f : Field) : Slot → Walk σ ε Slot
  | .value v => v.descend enter kind f
  | s => pure s

theorem Slot.descendAll_cons (kind : String) (f : Field) (fs : List Field) (s : Slot) (ss : List Slot) :
    Slot.descendAll enter kind (f :: fs) (s :: ss) = (do
      let s ← s.descend enter kind f
      let ss ← Slot.descendAll enter kind fs ss
      return s :: ss) := by
  cases s <;> rfl

theorem Value.descendAll_node (n : Node) (rest : List Value) :
    Value.descendAll enter (.node n :: rest) = (do
      let r ← n.transform enter
      let rest ← Value.descendAll enter rest
      return r.elements ++ rest) := rfl

theorem Node.transform_descend (leave : Node → Walk σ ε Replacement) (n : Node) :
    n.transform (fun _ => return .descend leave) = (do
      let slots ← Slot.descendAll (fun _ => return .descend leave) n.kind n.schema.fields n.slots
      leave (.mk n.schema slots)) := by
  cases n
  rfl

theorem Walk.ofAssign_ends {α : Type} {a : α} {outcome : Except NodeError α} {P : α → Prop} {E : ε → Prop}
    (ok : outcome = .ok a) (holds : P a) : (Walk.ofAssign (σ := σ) outcome).Ends P E := by
  rw [ok]
  exact Walk.ends_pure holds

end Transformer

def Slot.Kept (s after : Slot) : Prop :=
  after.isUnset = s.isUnset ∧ ∀ c, after.node? = some c →
    ∃ b, s.node? = some b ∧ c.schema = b.schema ∧ ∀ field, c.isSet field = b.isSet field

-- The same fields are set, and nodes in them are of the same kinds with the same fields set.
structure Node.Kept (n m : Node) : Prop where
  schema : m.schema = n.schema
  set (name : String) : m.isSet name = n.isSet name
  nodes (name : String) (c : Node) : m.nodeAt? name = some c →
    ∃ b, n.nodeAt? name = some b ∧ c.schema = b.schema ∧ ∀ field, c.isSet field = b.isSet field

theorem Slot.Kept.refl {s : Slot} : s.Kept s := ⟨rfl, fun c same => ⟨c, same, rfl, fun _ => rfl⟩⟩

theorem forall₂_index {α β : Type} {R : α → β → Prop} {xs : List α} {ys : List β}
    (all : List.Forall₂ R xs ys) (index : Nat) : (xs[index]? = none ∧ ys[index]? = none) ∨
      ∃ x y, xs[index]? = some x ∧ ys[index]? = some y ∧ R x y := by
  induction all generalizing index with
  | nil => exact .inl ⟨rfl, rfl⟩
  | cons first _ ih =>
    cases index with
    | zero => exact .inr ⟨_, _, rfl, rfl, first⟩
    | succ index => exact ih index

theorem Node.kept_slots {schema : Schema} {slots after : List Slot}
    (kept : List.Forall₂ Slot.Kept slots after) : (Node.mk schema slots).Kept (.mk schema after) := by
  have place : ∀ name, ((Node.mk schema slots).slot? name = none ∧ (Node.mk schema after).slot? name = none) ∨
      ∃ s t, (Node.mk schema slots).slot? name = some s ∧ (Node.mk schema after).slot? name = some t ∧
        s.Kept t := by
    intro name
    unfold Node.slot?
    cases found : (Node.mk schema slots).schema.fieldIndex? name with
    | none => exact .inl ⟨rfl, by rw [show (Node.mk schema after).schema.fieldIndex? name = none from found]; rfl⟩
    | some index =>
      rw [show (Node.mk schema after).schema.fieldIndex? name = some index from found]
      exact forall₂_index kept index
  refine ⟨rfl, fun name => ?_, fun name c held => ?_⟩
  · unfold Node.isSet
    rcases place name with ⟨before, now⟩ | ⟨s, t, before, now, same⟩
    · rw [before, now]
    · rw [before, now, Option.any_some, Option.any_some, same.1]
  · unfold Node.nodeAt? at held ⊢
    rcases place name with ⟨before, now⟩ | ⟨s, t, before, now, same⟩
    · rw [now] at held
      cases held
    · rw [now] at held
      rw [before]
      exact same.2 c held

namespace Desugarer

-- A part that a rule of the desugarer asks for and that the tree does not have.
inductive Lacks (d : Desugarer) (root : Node) : RewriteError → Prop where
  | loop {n : Node} {field : String} (rule : .forLoop ∈ d.rules) (met : n ∈ root.visited) (kind : n.kind = "For")
      (part : field ∈ ["target", "iter"]) (missing : n.isSet field = false) :
      Lacks d root (.shape Rule.forLoopName ("a node in " ++ n.kind ++ "." ++ field))
  | augmented {n t : Node} {field : String} (rule : .augAssign ∈ d.rules) (met : n ∈ root.visited)
      (kind : n.kind = "AugAssign") (target : n.nodeAt? "target" = some t) (isName : t.kind = "Name")
      (part : field ∈ ["op", "value"]) (missing : n.isSet field = false) :
      Lacks d root (.shape Rule.augAssignName ("a node in " ++ n.kind ++ "." ++ field))
  | nameless {n t : Node} (rule : .augAssign ∈ d.rules) (met : n ∈ root.visited) (kind : n.kind = "AugAssign")
      (target : n.nodeAt? "target" = some t) (isName : t.kind = "Name") (missing : t.isSet "id" = false) :
      Lacks d root (.shape Rule.augAssignName "a name target")
  | untested {n : Node} (rule : .assertion ∈ d.rules) (met : n ∈ root.visited) (kind : n.kind = "Assert")
      (missing : n.isSet "test" = false) :
      Lacks d root (.shape Rule.assertName ("a node in " ++ n.kind ++ "." ++ "test"))

-- What comes in the place of a node: the node with its children done, or what a rule emits for it.
inductive Becomes (d : Desugarer) (n : Node) : Replacement → Prop where
  | kept {m : Node} (typed : m.WellTyped coreRegistry) (settled : d.Settled m) (same : n.Kept m) :
      Becomes d n (.ofNode m)
  | lowered {m : Node} (kind : n.kind ∈ Core.replaced) (done : d.Done "stmt" m) : Becomes d n (.ofNode m)
  | unrolled {ms : List Node} (rule : .forLoop ∈ d.rules) (kind : n.kind = "For") (nonempty : ms ≠ [])
      (done : ∀ m ∈ ms, d.Done "stmt" m) :
      Becomes d n (.ofNodes ms)

variable {d : Desugarer}

theorem Lacks.above {root child : Node} {e : RewriteError} (member : child ∈ root.children)
    (lacks : d.Lacks child e) : d.Lacks root e := by
  have above : ∀ {n}, n ∈ child.visited → n ∈ root.visited :=
    fun met => Node.mem_visited.mpr (.inr ⟨child, member, met⟩)
  cases lacks with
  | loop rule met kind part missing => exact .loop rule (above met) kind part missing
  | augmented rule met kind target isName part missing =>
    exact .augmented rule (above met) kind target isName part missing
  | nameless rule met kind target isName missing => exact .nameless rule (above met) kind target isName missing
  | untested rule met kind missing => exact .untested rule (above met) kind missing

def Element (d : Desugarer) (f : Field) (v : Value) : Prop :=
  f.type.accepts v = true ∧ v.WellTyped coreRegistry ∧ ∀ n, v = .node n → d.Settled n

theorem Becomes.elements {schema : Schema} {f : Field} {n : Node} {r : Replacement} (becomes : d.Becomes n r)
    (member : schema ∈ coreRegistry.schemas) (field : f ∈ schema.fields) (typed : n.WellTyped coreRegistry)
    (accepted : f.type.accepts (.node n) = true) : r.elements ≠ [] ∧ ∀ v ∈ r.elements, d.Element f v := by
  cases becomes with
  | kept typedM settled same =>
    refine ⟨List.cons_ne_nil _ _, fun v inside => ?_⟩
    rw [List.mem_singleton.mp inside]
    exact ⟨(ElementType.accepts_schema same.schema).trans accepted, typedM,
      fun _ isM => by cases isM; exact settled⟩
  | lowered kind done =>
    obtain ⟨type, -⟩ := replaced_place member field typed kind accepted
    refine ⟨List.cons_ne_nil _ _, fun v inside => ?_⟩
    rw [List.mem_singleton.mp inside]
    exact ⟨by rw [type]; exact done.1.1, done.1.2, fun _ isM => by cases isM; exact done.2⟩
  | unrolled rule kind nonempty done =>
    obtain ⟨type, -⟩ := replaced_place member field typed (by simp [kind, Core.replaced]) accepted
    refine ⟨by simpa [Replacement.ofNodes, Replacement.elements] using nonempty, fun v inside => ?_⟩
    obtain ⟨m, part, rfl⟩ := List.mem_map.mp inside
    have isDone := done m part
    exact ⟨by rw [type]; exact isDone.1.1, isDone.1.2, fun _ isM => by cases isM; exact isDone.2⟩

section Descent

variable (enter : Node → Walk PassState RewriteError (Visit PassState RewriteError)) {kind : String}
  {schema : Schema} {f : Field} {E : RewriteError → Prop}

theorem elements_end (member : schema ∈ coreRegistry.schemas) (field : f ∈ schema.fields) {items : List Value}
    (accepted : ∀ v ∈ items, f.type.accepts v = true) (typed : ∀ v ∈ items, v.WellTyped coreRegistry)
    (below : ∀ n, .node n ∈ items → (n.transform enter).Ends (d.Becomes n) E) :
    (Value.descendAll enter items).Ends
      (fun after => (items ≠ [] → after ≠ []) ∧ ∀ v ∈ after, d.Element f v) E := by
  induction items with
  | nil => exact Walk.ends_pure ⟨id, List.forall_mem_nil _⟩
  | cons v rest ih =>
    rw [List.forall_mem_cons] at accepted typed
    have others := ih accepted.2 typed.2 fun n inside => below n (List.mem_cons_of_mem _ inside)
    cases v with
    | node n =>
      rw [Value.descendAll_node]
      refine (below n (List.mem_cons_self ..)).bind fun r becomes => others.bind fun after all => ?_
      obtain ⟨nonempty, each⟩ := becomes.elements member field typed.1 accepted.1
      refine Walk.ends_pure ⟨fun _ => List.append_ne_nil_of_left_ne_nil nonempty _, fun w inside => ?_⟩
      rcases List.mem_append.mp inside with new | old
      · exact each w new
      · exact all.2 w old
    | _ =>
      exact others.bind fun after all => Walk.ends_pure ⟨fun _ => List.cons_ne_nil _ _,
        List.forall_mem_cons.mpr ⟨⟨accepted.1, typed.1, nofun⟩, all.2⟩⟩

theorem refill_end (plain : f.Plain) {form : List Value → Value} {items : List Value}
    (shape : form = .list ∨ form = .tuple) (fits : f.Fits (form items))
    {c : Walk PassState RewriteError (List Value)}
    (each : (f.cardinality.isSequence = true) → c.Ends
      (fun after => (items ≠ [] → after ≠ []) ∧ ∀ v ∈ after, d.Element f v) E) :
    (do
      let items ← c
      Walk.ofAssign (f.refill kind form items) : Walk PassState RewriteError Slot).Ends
        (fun after => d.Holds f after ∧ (Slot.value (form items)).Kept after) E := by
  have isItems : ∀ items, (form items).items? = some items := by
    intro items
    rcases shape with rfl | rfl <;> rfl
  have notNode : ∀ items, (Slot.value (form items)).node? = none := by
    intro items
    rcases shape with rfl | rfl <;> rfl
  have repeated : f.cardinality.isSequence = true := by
    cases single : f.cardinality.isSequence with
    | true => rfl
    | false =>
      have accepted := ((Field.fits_single single plain.known).mp fits).2
      have flat := ElementType.accepts_flat plain.flat accepted
      rw [isItems] at flat
      cases flat
  rw [Field.fits_items repeated (isItems items)] at fits
  refine (each repeated).bind fun after all => ?_
  have refilled : f.refill kind form after = .ok (.value (form after)) := by
    unfold Field.refill
    refine if_neg fun emptied => ?_
    rw [Bool.and_eq_true, List.isEmpty_iff, beq_iff_eq] at emptied
    exact all.1 (fits.1 emptied.2) emptied.1
  refine Walk.ofAssign_ends refilled ⟨⟨⟨?_, ?_⟩, ?_⟩, ?_⟩
  · refine (Field.fits_items repeated (isItems after)).mpr ⟨fun one => all.1 (fits.1 one), fun v inside => ?_⟩
    exact (all.2 v inside).1
  · exact (Value.items_typed (isItems after)).mpr fun v inside => (all.2 v inside).2.1
  · intro child held
    rcases Value.mem_children.mp held with same | ⟨_, found, inside⟩
    · have impossible := notNode after
      rw [same] at impossible
      cases impossible
    · cases (isItems after).symm.trans found
      exact (all.2 _ inside).2.2 child rfl
  · refine ⟨rfl, fun c isNode => ?_⟩
    rw [notNode] at isNode
    cases isNode

theorem unreplaced_field (member : schema ∈ coreRegistry.schemas) (field : f ∈ schema.fields) {n : Node}
    (typed : n.WellTyped coreRegistry) (fits : f.Fits (.node n)) : n.kind ∉ Core.replaced := by
  have single : f.cardinality.isSequence = false := by
    cases repeated : f.cardinality.isSequence with
    | false => rfl
    | true =>
      obtain ⟨_, found, -⟩ := Field.fits_repeated repeated fits
      cases found
  have accepted := ((Field.fits_single single (core_plain schema member f field).known).mp fits).2
  intro kind
  rw [(replaced_place member field typed kind accepted).2] at single
  cases single

theorem slot_end (member : schema ∈ coreRegistry.schemas) (field : f ∈ schema.fields) {s : Slot}
    (typed : s.Typed coreRegistry f)
    (below : ∀ child ∈ s.children, (child.transform enter).Ends (d.Becomes child) E) :
    (s.descend enter kind f).Ends (fun after => d.Holds f after ∧ s.Kept after) E := by
  have plain := core_plain schema member f field
  cases s with
  | unset => exact Walk.ends_pure ⟨unset_holds, .refl⟩
  | explicitNone => exact Walk.ends_pure ⟨⟨typed, List.forall_mem_nil _⟩, .refl⟩
  | value v =>
    obtain ⟨fits, inner⟩ := typed
    cases v with
    | list items =>
      refine refill_end plain (.inl rfl) fits fun repeated => ?_
      have accepted := ((Field.fits_items (v := .list items) repeated rfl).mp fits).2
      exact elements_end enter member field accepted (Value.allTyped_mem.mp inner) fun n inside =>
        below n (Value.mem_children (v := .list items) |>.mpr (.inr ⟨items, rfl, inside⟩))
    | tuple items =>
      refine refill_end plain (.inr rfl) fits fun repeated => ?_
      have accepted := ((Field.fits_items (v := .tuple items) repeated rfl).mp fits).2
      exact elements_end enter member field accepted (Value.allTyped_mem.mp inner) fun n inside =>
        below n (Value.mem_children (v := .tuple items) |>.mpr (.inr ⟨items, rfl, inside⟩))
    | node n =>
      have notReplaced := unreplaced_field member field inner fits
      refine Walk.Ends.bind (below n (List.mem_singleton_self _)) fun r becomes => ?_
      cases becomes with
      | kept typedM settled same =>
        refine Walk.ofAssign_ends (Field.assign_value.mpr ((Field.fits_node same.schema).mpr fits))
          ⟨⟨⟨?_, typedM⟩, ?_⟩, ?_⟩
        · exact (Field.fits_node same.schema).mpr fits
        · exact fun child held => List.mem_singleton.mp held ▸ settled
        · exact ⟨rfl, fun c isNode => ⟨n, rfl, by cases isNode; exact ⟨same.schema, same.set⟩⟩⟩
      | lowered kind done => exact absurd kind notReplaced
      | unrolled rule kind nonempty done => exact absurd (by simp [kind, Core.replaced]) notReplaced
    | _ => exact Walk.ends_pure ⟨⟨⟨fits, inner⟩, List.forall_mem_nil _⟩, .refl⟩

theorem slots_end (member : schema ∈ coreRegistry.schemas) {fs : List Field} {ss : List Slot}
    (fields : ∀ f ∈ fs, f ∈ schema.fields) (typed : Slot.AllTyped coreRegistry fs ss)
    (below : ∀ s ∈ ss, ∀ child ∈ s.children, (child.transform enter).Ends (d.Becomes child) E) :
    (Slot.descendAll enter kind fs ss).Ends
      (fun after => List.Forall₂ d.Holds fs after ∧ List.Forall₂ Slot.Kept ss after) E := by
  induction fs generalizing ss with
  | nil =>
    cases Slot.allTyped_nil typed
    exact Walk.ends_pure ⟨.nil, .nil⟩
  | cons f fs ih =>
    obtain ⟨s, rest, rfl, first, others⟩ := Slot.allTyped_cons typed
    rw [List.forall_mem_cons] at fields below
    rw [Slot.descendAll_cons]
    refine (slot_end enter member fields.1 first below.1).bind fun after one => ?_
    refine (ih fields.2 others below.2).bind fun afters all => ?_
    exact Walk.ends_pure ⟨.cons one.1 all.1, .cons one.2 all.2⟩

end Descent

section Leaving

variable {n m : Node} {rule : Rule}

theorem forLoop_ends (builtin : d.Builtin) (chosen : .forLoop ∈ d.rules) (typed : m.WellTyped coreRegistry)
    (settled : ∀ child ∈ m.children, d.Settled child) (kept : n.Kept m) (kind : m.kind = "For") :
    (Rule.forLoop.rewrite coreRegistry m).Ends (d.Becomes n) (d.Lacks n) := by
  intro s
  have schema := (core_kind (s := Core.forLoop) (by simp [Core.schemas]) typed).mp kind
  have sameKind : n.kind = m.kind := by rw [Node.kind, Node.kind, kept.schema]
  rcases Rule.forLoop_rewrite core_lowers typed schema s with
    ⟨loop, ofLoop, target, iter, body, orelse, ran⟩ | ⟨field, part, missing, ran⟩
  · rw [ran]
    have items : ∀ {name : String} {items : List Value}, m.itemsAt name = items →
        Statements coreRegistry items → d.AllDone items := by
      intro name _ same statements item member
      subst same
      obtain ⟨c, rfl, isStatement⟩ := statements item member
      exact ⟨c, rfl, isStatement, settled c (Node.itemsAt_child member)⟩
    refine .unrolled chosen (sameKind.trans kind) (by simp [Lowered.loop]) ?_
    exact loop_done builtin (Rule.Loop.drawn_valid _ _)
      ((em _).imp_right fun some_orelse => mt (Rule.Loop.drawn_exhausted _ s).mpr some_orelse)
      ⟨ofLoop.target, settled _ (Node.nodeAt_child target)⟩ ⟨ofLoop.iter, settled _ (Node.nodeAt_child iter)⟩
      (items body ofLoop.body) (items orelse ofLoop.orelse)
  · rw [ran, ← sameKind]
    exact .loop chosen n.self_visited (sameKind.trans kind) part ((kept.set field).symm.trans missing)

theorem augAssign_ends {t : Node} (builtin : d.Builtin) (chosen : .augAssign ∈ d.rules)
    (typed : m.WellTyped coreRegistry) (settled : ∀ child ∈ m.children, d.Settled child) (kept : n.Kept m)
    (kind : m.kind = "AugAssign") (target : m.nodeAt? "target" = some t) (isName : t.kind = "Name") :
    (Rule.augAssign.rewrite coreRegistry m).Ends (d.Becomes n) (d.Lacks n) := by
  intro s
  have schema := (core_kind (s := Core.augAssign) (by simp [Core.schemas]) typed).mp kind
  have typedTarget := Node.child_typed typed (Node.nodeAt_child target)
  have nameSchema := (core_kind (s := Core.name) (by simp [Core.schemas]) typedTarget).mp isName
  have sameKind : n.kind = m.kind := by rw [Node.kind, Node.kind, kept.schema]
  obtain ⟨before, held, sameSchema, sameSet⟩ := kept.nodes "target" t target
  have wasName : before.kind = "Name" := by rw [← isName, Node.kind, Node.kind, sameSchema]
  rw [Rule.augAssign_rewrite]
  rcases Rule.spelledOut_cases core_lowers typed schema target nameSchema with
    ⟨id, op, value, -, valid, opHeld, isOp, valueHeld, isValue, made⟩ | ⟨field, part, missing, refused⟩ |
      ⟨missing, refused⟩
  · rw [made]
    refine .lowered (by simp [sameKind, kind, Core.replaced]) (spelledOut_done builtin valid ?_ ?_)
    · exact ⟨isOp, settled _ (Node.nodeAt_child opHeld)⟩
    · exact ⟨isValue, settled _ (Node.nodeAt_child valueHeld)⟩
  · rw [refused, ← sameKind]
    exact .augmented chosen n.self_visited (sameKind.trans kind) held wasName part
      ((kept.set field).symm.trans missing)
  · rw [refused]
    exact .nameless chosen n.self_visited (sameKind.trans kind) held wasName ((sameSet "id").symm.trans missing)

theorem assertion_ends (builtin : d.Builtin) (chosen : .assertion ∈ d.rules)
    (typed : m.WellTyped coreRegistry) (settled : ∀ child ∈ m.children, d.Settled child) (kept : n.Kept m)
    (kind : m.kind = "Assert") :
    (Rule.assertion.rewrite coreRegistry m).Ends (d.Becomes n) (d.Lacks n) := by
  intro s
  have schema := (core_kind (s := Core.assertion) (by simp [Core.schemas]) typed).mp kind
  have sameKind : n.kind = m.kind := by rw [Node.kind, Node.kind, kept.schema]
  rw [Rule.assertion_rewrite]
  rcases Rule.raiseUnless_cases core_lowers typed schema with
    ⟨test, held, isTest, isMessage, made⟩ | ⟨missing, refused⟩
  · rw [made]
    refine .lowered (by simp [sameKind, kind, Core.replaced]) (raiseUnless_done builtin ?_ fun msg given => ?_)
    · exact ⟨isTest, settled _ (Node.nodeAt_child held)⟩
    · exact ⟨isMessage msg given, settled _ (Node.nodeAt_child given)⟩
  · rw [refused, ← sameKind]
    exact .untested chosen n.self_visited (sameKind.trans kind) ((kept.set "test").symm.trans missing)

theorem applyMatch_none (found : d.findMatch? m = .ok none) (s : PassState) :
    (d.applyMatch m).run s = (.ok (.ofNode m), s) := by
  unfold applyMatch
  rw [found]
  rfl

theorem applyMatch_some (found : d.findMatch? m = .ok (some rule)) (s : PassState) :
    (d.applyMatch m).run s = (((rule.rewrite d.registry m).run s.names).1,
      ⟨((rule.rewrite d.registry m).run s.names).2, s.applied + 1⟩) := by
  unfold applyMatch
  rw [found]
  rfl

theorem applyMatch_ends (builtin : d.Builtin) (registry : d.registry = coreRegistry)
    (typed : m.WellTyped coreRegistry) (settled : ∀ child ∈ m.children, d.Settled child) (kept : n.Kept m) :
    (d.applyMatch m).Ends (d.Becomes n) (d.Lacks n) := by
  intro s
  have found := findMatch_find builtin m
  cases choice : (d.candidates m).find? fun rule => rule.accepts m with
  | none =>
    rw [choice] at found
    rw [applyMatch_none found]
    exact .kept typed (settled_node found settled) kept
  | some rule =>
    rw [choice] at found
    have chosen := candidate_member (List.mem_of_find?_eq_some choice)
    rw [applyMatch_some found, registry]
    rcases findMatch_rule builtin typed found with
      ⟨rfl, kind⟩ | ⟨rfl, kind⟩ | ⟨rfl, kind, t, target, isName⟩
    · exact forLoop_ends builtin chosen typed settled kept kind s.names
    · exact assertion_ends builtin chosen typed settled kept kind s.names
    · exact augAssign_ends builtin chosen typed settled kept kind target isName s.names

end Leaving

-- The induction is on the tree: a rule runs on a node that has the kind and the set fields of the original,
-- with children that are done.
theorem pass_ends (builtin : d.Builtin) (registry : d.registry = coreRegistry) (n : Node) :
    n.WellTyped coreRegistry → (d.pass n).Ends (d.Becomes n) (d.Lacks n) := by
  induction n using Node.children_induct with
  | step n ih =>
    intro typed
    obtain ⟨schema, slots⟩ := n
    have member : schema ∈ coreRegistry.schemas := typed.member
    unfold pass
    rw [Node.transform_descend]
    refine (slots_end (d := d) (fun _ => pure (.descend d.applyMatch)) member (fun _ => id) typed.2
      fun s slot child held => ?_).bind fun after all => ?_
    · have inside : child ∈ (Node.mk schema slots).children := Node.mem_children.mpr ⟨s, slot, held⟩
      exact (ih child inside (Node.child_typed typed inside)).mono (fun _ => id) fun e lacks => lacks.above inside
    · obtain ⟨typedAfter, settledAfter⟩ := slots_hold all.1
      refine applyMatch_ends builtin registry ⟨member, typedAfter⟩ (fun child held => ?_) (Node.kept_slots all.2)
      obtain ⟨s, slot, inside⟩ := Node.mem_children.mp held
      exact settledAfter s slot child inside

end Desugarer

end TreeLowering
