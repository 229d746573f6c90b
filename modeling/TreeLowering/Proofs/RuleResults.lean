import TreeLowering.Proofs.Issued
import TreeLowering.Proofs.Lowered
import TreeLowering.Proofs.Walks

namespace TreeLowering

def Node.Is (r : Registry) (kind : String) (n : Node) : Prop := n.isA kind = true ∧ n.WellTyped r

def Statements (r : Registry) (items : List Value) : Prop := ∀ item ∈ items, ∃ n, item = .node n ∧ n.Is r "stmt"

variable {r : Registry}

theorem Statements.accepted {items : List Value} (statements : Statements r items) :
    ∀ item ∈ items, (ElementType.kind "stmt").accepts item = true := by
  intro item member
  obtain ⟨n, rfl, isStatement⟩ := statements item member
  exact isStatement.1

namespace Slot

variable {name kind : String} {s : Slot}

theorem allTyped_cons {f : Field} {fs : List Field} {ss : List Slot} (typed : Slot.AllTyped r (f :: fs) ss) :
    ∃ s rest, ss = s :: rest ∧ s.Typed r f ∧ Slot.AllTyped r fs rest := by
  cases ss with
  | nil => exact typed.elim
  | cons s rest => exact ⟨s, rest, rfl, typed⟩

theorem allTyped_nil {ss : List Slot} (typed : Slot.AllTyped r [] ss) : ss = [] := by
  cases ss with
  | nil => rfl
  | cons s rest => exact typed.elim

theorem one_cases (typed : s.Typed r (Core.one name kind)) :
    s = .unset ∨ ∃ n, s = .value (.node n) ∧ n.Is r kind := by
  cases s with
  | unset => exact .inl rfl
  | explicitNone => cases typed
  | value v =>
    obtain ⟨fits, below⟩ := typed
    obtain ⟨n, rfl, isKind⟩ := ElementType.accepts_kind.mp (Core.one_fits.mp fits)
    exact .inr ⟨n, rfl, isKind, below⟩

theorem maybe_cases (typed : s.Typed r (Core.maybe name kind)) :
    s = .unset ∨ s = .explicitNone ∨ ∃ n, s = .value (.node n) ∧ n.Is r kind := by
  cases s with
  | unset => exact .inl rfl
  | explicitNone => exact .inr (.inl rfl)
  | value v =>
    obtain ⟨fits, below⟩ := typed
    obtain ⟨n, rfl, isKind⟩ := ElementType.accepts_kind.mp (Core.maybe_fits.mp fits)
    exact .inr (.inr ⟨n, rfl, isKind, below⟩)

theorem statements_cases {f : Field} (type : f.type = .kind "stmt")
    (repeated : f.cardinality.isSequence = true) (typed : s.Typed r f) :
    s = .unset ∨ ∃ items, (s = .value (.list items) ∨ s = .value (.tuple items)) ∧ Statements r items := by
  cases s with
  | unset => exact .inl rfl
  | explicitNone =>
    rw [show f.cardinality = .optional from typed] at repeated
    cases repeated
  | value v =>
    obtain ⟨fits, below⟩ := typed
    obtain ⟨items, found, -, all⟩ := Field.fits_repeated repeated fits
    refine .inr ⟨items, by cases v <;> cases found <;> simp, fun item member => ?_⟩
    have isStatement := all item member
    rw [type] at isStatement
    obtain ⟨n, rfl, isKind⟩ := ElementType.accepts_kind.mp isStatement
    exact ⟨n, rfl, isKind, (Value.items_typed found).mp below _ member⟩

end Slot

namespace Lowered

def flag (names : Rule.LoopNames) (b : Bool) : List Node :=
  (names.exhausted.map fun flag => assign (store flag) (truth b)).toList

def advance (names : Rule.LoopNames) : Node :=
  tryExcept [assign (store names.item) (call "next" [load names.iterator])] "StopIteration"
    (flag names true ++ [.empty Core.leave])

def turn (names : Rule.LoopNames) (loop : Rule.Loop) : List Value :=
  .node (advance names) :: .node (assign loop.target (load names.item)) :: loop.body

def loop (names : Rule.LoopNames) (loop : Rule.Loop) : List Node :=
  flag names false ++ [assign (store names.iterator) (call "iter" [loop.iter]), whileTrue (turn names loop)] ++
    (names.exhausted.map fun flag => ifThen (load flag) loop.orelse []).toList

def spelledOut (id : String) (op value : Node) : Node := assign (store id) (binOp (load id) op value)

def raiseUnless (test : Node) (msg : Option Node) : Node :=
  ifThen (negation test) [.node (raise (call "AssertionError" msg.toList))] []

end Lowered

namespace Rule

structure LoopNames.Valid (names : LoopNames) : Prop where
  iterator : Text.isIdentifier names.iterator = true
  item : Text.isIdentifier names.item = true
  exhausted : ∀ flag, names.exhausted = some flag → Text.isIdentifier flag = true

namespace Loop

structure Typed (r : Registry) (loop : Loop) : Prop where
  target : loop.target.Is r "expr"
  iter : loop.iter.Is r "expr"
  body : Statements r loop.body
  orelse : Statements r loop.orelse

def drawn (orelse : List Value) (s : NameSupply) : LoopNames × NameSupply :=
  let (iterator, s) := s.fresh "__iter"
  let (item, s) := s.fresh "__item"
  if orelse.isEmpty then (⟨iterator, item, none⟩, s)
  else
    let (flag, s) := s.fresh "__nobreak"
    (⟨iterator, item, some flag⟩, s)

theorem drawNames_drawn (orelse : List Value) (s : NameSupply) :
    (drawNames orelse).run s = (.ok (drawn orelse s).1, (drawn orelse s).2) := by
  unfold drawNames drawn
  cases orelse <;> rfl

theorem drawn_valid (orelse : List Value) (s : NameSupply) : (drawn orelse s).1.Valid := by
  unfold drawn
  cases orelse with
  | nil => exact ⟨NameSupply.fresh_valid rfl _, NameSupply.fresh_valid rfl _, nofun⟩
  | cons v rest =>
    refine ⟨NameSupply.fresh_valid rfl _, NameSupply.fresh_valid rfl _, ?_⟩
    intro flag same
    cases same
    exact NameSupply.fresh_valid rfl _

theorem drawn_exhausted (orelse : List Value) (s : NameSupply) :
    (drawn orelse s).1.exhausted = none ↔ orelse = [] := by
  unfold drawn
  cases orelse <;> simp

-- The parts of a loop, or what is asked for in their place.
theorem ofNode_cases {n : Node} (rule : String) (typed : n.WellTyped r) (schema : n.schema = Core.forLoop) :
    (∃ loop, Loop.ofNode rule n = .ok loop ∧ loop.Typed r ∧ n.nodeAt? "target" = some loop.target ∧
      n.nodeAt? "iter" = some loop.iter ∧ n.itemsAt "body" = loop.body ∧ n.itemsAt "orelse" = loop.orelse) ∨
    ∃ field ∈ ["target", "iter"], n.isSet field = false ∧
      Loop.ofNode rule n = .error (.shape rule ("a node in " ++ n.kind ++ "." ++ field)) := by
  obtain ⟨_, slots⟩ := n
  cases schema
  obtain ⟨target, slots, rfl, ofTarget, typed⟩ := Slot.allTyped_cons typed.2
  obtain ⟨iter, slots, rfl, ofIter, typed⟩ := Slot.allTyped_cons typed
  obtain ⟨body, slots, rfl, ofBody, typed⟩ := Slot.allTyped_cons typed
  obtain ⟨orelse, slots, rfl, ofOrelse, typed⟩ := Slot.allTyped_cons typed
  obtain ⟨comment, slots, rfl, -, typed⟩ := Slot.allTyped_cons typed
  cases Slot.allTyped_nil typed
  rcases Slot.one_cases ofTarget with rfl | ⟨target, rfl, isTarget⟩
  · exact .inr ⟨"target", by simp, rfl, rfl⟩
  rcases Slot.one_cases ofIter with rfl | ⟨iter, rfl, isIter⟩
  · exact .inr ⟨"iter", by simp, rfl, rfl⟩
  left
  have bodyItems : ∃ items, Statements r items ∧ (body = .unset ∧ items = [] ∨ body = .value (.list items) ∨
      body = .value (.tuple items)) := by
    rcases Slot.statements_cases rfl rfl ofBody with same | ⟨items, shape, statements⟩
    · exact ⟨[], nofun, .inl ⟨same, rfl⟩⟩
    · exact ⟨items, statements, .inr shape⟩
  have orelseItems : ∃ items, Statements r items ∧ (orelse = .unset ∧ items = [] ∨
      orelse = .value (.list items) ∨ orelse = .value (.tuple items)) := by
    rcases Slot.statements_cases rfl rfl ofOrelse with same | ⟨items, shape, statements⟩
    · exact ⟨[], nofun, .inl ⟨same, rfl⟩⟩
    · exact ⟨items, statements, .inr shape⟩
  obtain ⟨body, isBody, bodyShape⟩ := bodyItems
  obtain ⟨orelse, isOrelse, orelseShape⟩ := orelseItems
  refine ⟨⟨target, iter, body, orelse⟩, ?_, ⟨isTarget, isIter, isBody, isOrelse⟩, rfl, rfl, ?_, ?_⟩
  · rcases bodyShape with ⟨rfl, rfl⟩ | rfl | rfl <;> rcases orelseShape with ⟨rfl, rfl⟩ | rfl | rfl <;> rfl
  · rcases bodyShape with ⟨rfl, rfl⟩ | rfl | rfl <;> rfl
  · rcases orelseShape with ⟨rfl, rfl⟩ | rfl | rfl <;> rfl

variable {names : LoopNames} {loop : Loop}

theorem setFlag_made (lowers : r.Lowers) (valid : names.Valid) (b : Bool) :
    setFlag r names b = .ok (Lowered.flag names b) := by
  unfold setFlag Lowered.flag
  cases drawn : names.exhausted with
  | none => rfl
  | some flag =>
    dsimp only
    rw [Registry.truth_made lowers, ok_then, Registry.assign_made lowers (valid.exhausted _ drawn) rfl]
    rfl

theorem flag_statement {b : Bool} {n : Node} (member : n ∈ Lowered.flag names b) : n.isA "stmt" = true := by
  obtain ⟨flag, -, rfl⟩ := Option.map_eq_some_iff.mp (Option.mem_toList.mp member)
  rfl

theorem advance_made (lowers : r.Lowers) (valid : names.Valid) :
    advance r names = .ok (Lowered.advance names) := by
  have next : r.call "next" [Lowered.load names.iterator] =
      .ok (Lowered.call "next" [Lowered.load names.iterator]) := by
    refine Registry.call_made lowers rfl fun arg member => ?_
    rw [List.mem_singleton.mp member]
    rfl
  rw [advance, Registry.load_made lowers valid.iterator, ok_then, next, ok_then,
    Registry.assign_made lowers valid.item rfl, ok_then, setFlag_made lowers valid, ok_then,
    show r.leaf "Break" = .ok (.empty Core.leave) from
      Registry.leaf_empty (s := Core.leave) lowers (by simp [Core.schemas]),
    ok_then]
  refine Registry.tryExcept_made lowers rfl (List.cons_ne_nil _ _) (by simp) ?_ ?_
  · intro n member
    rw [List.mem_singleton.mp member]
    rfl
  · intro n member
    rcases List.mem_append.mp member with raised | leave
    · exact flag_statement raised
    · rw [List.mem_singleton.mp leave]
      rfl

theorem turn_accepted (typed : loop.Typed r) :
    ∀ item ∈ Lowered.turn names loop, (ElementType.kind "stmt").accepts item = true := by
  intro item member
  simp only [Lowered.turn, List.mem_cons] at member
  rcases member with rfl | rfl | inside
  · rfl
  · rfl
  · exact typed.body.accepted item inside

-- The statements that a loop becomes.
theorem lower_made (lowers : r.Lowers) (valid : names.Valid) (typed : loop.Typed r)
    (flagged : names.exhausted = none ∨ loop.orelse ≠ []) :
    loop.lower r names = .ok (Lowered.loop names loop) := by
  have started : r.call "iter" [loop.iter] = .ok (Lowered.call "iter" [loop.iter]) := by
    refine Registry.call_made lowers rfl fun arg member => ?_
    rw [List.mem_singleton.mp member]
    exact typed.iter.1
  have repeated : r.whileTrue (.node (Lowered.advance names) ::
      .node (Lowered.assign loop.target (Lowered.load names.item)) :: loop.body) =
        .ok (Lowered.whileTrue (Lowered.turn names loop)) :=
    Registry.whileTrue_made lowers (List.cons_ne_nil _ _) (turn_accepted typed)
  rw [lower, setFlag_made lowers valid, ok_then, started, ok_then,
    Registry.assign_made lowers valid.iterator rfl, ok_then, advance_made lowers valid, ok_then,
    Registry.load_made lowers valid.item, ok_then, Registry.assignTo_made lowers typed.target.1 rfl, ok_then,
    repeated, ok_then]
  unfold Lowered.loop
  cases drawn : names.exhausted with
  | none => rw [Option.map_none, Option.toList_none, List.append_nil]; rfl
  | some flag =>
    have nonempty : loop.orelse ≠ [] := flagged.resolve_left (by rw [drawn]; exact nofun)
    dsimp only
    have skipped : r.ifThen (Lowered.load flag) loop.orelse [] =
        .ok (Lowered.ifThen (Lowered.load flag) loop.orelse []) :=
      Registry.ifThen_made lowers rfl nonempty typed.orelse.accepted (List.forall_mem_nil _)
    rw [Registry.load_made lowers (valid.exhausted _ drawn), ok_then, skipped, ok_then, List.append_assoc]
    rfl

end Loop

theorem forLoop_rewrite {n : Node} (lowers : r.Lowers) (typed : n.WellTyped r)
    (schema : n.schema = Core.forLoop) (s : NameSupply) :
    (∃ loop : Loop, loop.Typed r ∧ n.nodeAt? "target" = some loop.target ∧
      n.nodeAt? "iter" = some loop.iter ∧ n.itemsAt "body" = loop.body ∧ n.itemsAt "orelse" = loop.orelse ∧
      (forLoop.rewrite r n).run s = (.ok (.ofNodes (Lowered.loop (Loop.drawn loop.orelse s).1 loop)),
        (Loop.drawn loop.orelse s).2)) ∨
    ∃ field ∈ ["target", "iter"], n.isSet field = false ∧
      (forLoop.rewrite r n).run s = (.error (.shape forLoopName ("a node in " ++ n.kind ++ "." ++ field)), s) := by
  rcases Loop.ofNode_cases forLoopName typed schema with
    ⟨loop, parts, ofLoop, target, iter, body, orelse⟩ | ⟨field, member, missing, refused⟩
  · refine .inl ⟨loop, ofLoop, target, iter, body, orelse, ?_⟩
    have made := Loop.lower_made lowers (Loop.drawn_valid loop.orelse s) ofLoop
      ((em _).imp_right fun some_orelse => mt (Loop.drawn_exhausted loop.orelse s).mpr some_orelse)
    have first : (Rewriting.ofExcept (Loop.ofNode forLoopName n)).run s = (.ok loop, s) := by
      rw [Rewriting.run_ofExcept, parts]
    refine (Walk.run_ok first).trans ((Walk.run_ok (Loop.drawNames_drawn loop.orelse s)).trans ?_)
    have last : (Rewriting.ofExcept (loop.lower r (Loop.drawn loop.orelse s).1)).run
        (Loop.drawn loop.orelse s).2 =
          (.ok (Lowered.loop (Loop.drawn loop.orelse s).1 loop), (Loop.drawn loop.orelse s).2) := by
      rw [Rewriting.run_ofExcept, made]
    exact Walk.run_ok last
  · refine .inr ⟨field, member, missing, ?_⟩
    refine Walk.run_error ?_
    rw [Rewriting.run_ofExcept, refused]

theorem spelledOut_cases {n t : Node} (lowers : r.Lowers) (typed : n.WellTyped r)
    (schema : n.schema = Core.augAssign) (target : n.nodeAt? "target" = some t) (isName : t.schema = Core.name) :
    (∃ id op value, t.textAt? "id" = some id ∧ Text.isIdentifier id = true ∧ n.nodeAt? "op" = some op ∧
      op.Is r "operator" ∧ n.nodeAt? "value" = some value ∧ value.Is r "expr" ∧
      spelledOut r n = .ok (Lowered.spelledOut id op value)) ∨
    (∃ field ∈ ["op", "value"], n.isSet field = false ∧
      spelledOut r n = .error (.shape augAssignName ("a node in " ++ n.kind ++ "." ++ field))) ∨
    (t.isSet "id" = false ∧ spelledOut r n = .error (.shape augAssignName "a name target")) := by
  obtain ⟨_, slots⟩ := n
  cases schema
  obtain ⟨first, slots, rfl, ofTarget, typed⟩ := Slot.allTyped_cons typed.2
  obtain ⟨op, slots, rfl, ofOp, typed⟩ := Slot.allTyped_cons typed
  obtain ⟨value, slots, rfl, ofValue, typed⟩ := Slot.allTyped_cons typed
  cases Slot.allTyped_nil typed
  rcases Slot.one_cases ofTarget with rfl | ⟨target', rfl, isTarget⟩
  · cases target
  cases target
  rcases Slot.one_cases ofOp with rfl | ⟨op, rfl, isOp⟩
  · exact .inr (.inl ⟨"op", by simp, rfl, rfl⟩)
  rcases Slot.one_cases ofValue with rfl | ⟨value, rfl, isValue⟩
  · exact .inr (.inl ⟨"value", by simp, rfl, rfl⟩)
  obtain ⟨_, slots⟩ := t
  cases isName
  obtain ⟨id, slots, rfl, ofId, typed⟩ := Slot.allTyped_cons isTarget.2.2
  obtain ⟨context, slots, rfl, ofContext, typed⟩ := Slot.allTyped_cons typed
  cases Slot.allTyped_nil typed
  cases id with
  | unset => exact .inr (.inr ⟨rfl, rfl⟩)
  | explicitNone => cases ofId
  | value v =>
    have accepted : ElementType.identifier.accepts v = true := ofId.1
    cases v with
    | str id =>
      refine .inl ⟨id, op, value, rfl, accepted, rfl, isOp, rfl, isValue, ?_⟩
      change (do
        let left ← r.load id
        let result ← r.node "BinOp" [("left", .node left), ("op", .node op), ("right", .node value)]
        r.assign id result) = _
      rw [Registry.load_made lowers accepted, ok_then, Registry.binOp_made lowers rfl isOp.1 isValue.1,
        ok_then]
      exact Registry.assign_made lowers accepted rfl
    | _ => cases accepted

theorem raiseUnless_cases {n : Node} (lowers : r.Lowers) (typed : n.WellTyped r)
    (schema : n.schema = Core.assertion) :
    (∃ test, n.nodeAt? "test" = some test ∧ test.Is r "expr" ∧
      (∀ msg, n.nodeAt? "msg" = some msg → msg.Is r "expr") ∧
      raiseUnless r n = .ok (Lowered.raiseUnless test (n.nodeAt? "msg"))) ∨
    (n.isSet "test" = false ∧
      raiseUnless r n = .error (.shape assertName ("a node in " ++ n.kind ++ "." ++ "test"))) := by
  obtain ⟨_, slots⟩ := n
  cases schema
  obtain ⟨test, slots, rfl, ofTest, typed⟩ := Slot.allTyped_cons typed.2
  obtain ⟨msg, slots, rfl, ofMsg, typed⟩ := Slot.allTyped_cons typed
  cases Slot.allTyped_nil typed
  rcases Slot.one_cases ofTest with rfl | ⟨test, rfl, isTest⟩
  · exact .inr ⟨rfl, rfl⟩
  left
  have message : ∃ given : Option Node, (∀ m, given = some m → m.Is r "expr") ∧
      (msg = .unset ∧ given = none ∨ msg = .explicitNone ∧ given = none ∨
        ∃ m, msg = .value (.node m) ∧ given = some m) := by
    rcases Slot.maybe_cases ofMsg with same | same | ⟨m, same, isMessage⟩
    · exact ⟨none, nofun, .inl ⟨same, rfl⟩⟩
    · exact ⟨none, nofun, .inr (.inl ⟨same, rfl⟩)⟩
    · exact ⟨some m, fun _ isM => by cases isM; exact isMessage, .inr (.inr ⟨m, same, rfl⟩)⟩
  obtain ⟨given, isMessage, shape⟩ := message
  have lowered : (do
      let error ← r.call "AssertionError" given.toList
      let raised ← r.raise error
      let failed ← r.negation test
      r.ifThen failed [.node raised] []) = .ok (Lowered.raiseUnless test given) := by
    have called : r.call "AssertionError" given.toList = .ok (Lowered.call "AssertionError" given.toList) :=
      Registry.call_made lowers rfl fun arg member => (isMessage arg (Option.mem_toList.mp member)).1
    rw [called, ok_then, Registry.raise_made lowers rfl, ok_then, Registry.negation_made lowers isTest.1, ok_then]
    refine Registry.ifThen_made lowers rfl (List.cons_ne_nil _ _) ?_ (List.forall_mem_nil _)
    intro item member
    rw [List.mem_singleton.mp member]
    rfl
  refine ⟨test, rfl, isTest, ?_⟩
  rcases shape with ⟨rfl, rfl⟩ | ⟨rfl, rfl⟩ | ⟨m, rfl, rfl⟩ <;> exact ⟨isMessage, lowered⟩

theorem augAssign_rewrite (n : Node) (s : NameSupply) :
    (augAssign.rewrite r n).run s = ((spelledOut r n).map .ofNode, s) := Rewriting.run_ofExcept _ _

theorem assertion_rewrite (n : Node) (s : NameSupply) :
    (assertion.rewrite r n).run s = ((raiseUnless r n).map .ofNode, s) := Rewriting.run_ofExcept _ _

end Rule

end TreeLowering
