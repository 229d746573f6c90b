import TreeLowering.Proofs.Dispatch
import TreeLowering.Proofs.Pipeline
import TreeLowering.Proofs.Reference

namespace TreeLowering

namespace Reference

-- From the one supply, the names of some loops were drawn and then the other is left.
structure Drawn (s : NameSupply) (passed : List Node) (t : NameSupply) : Prop where
  counted (hint : String) : t.issued hint = s.issued hint + uses hint passed
  issued : ∃ names, s.Issues names t

variable {s t : NameSupply} {passed : List Node}

theorem drawn_nil (s : NameSupply) : Drawn s [] s := ⟨fun _ => rfl, [], .nil⟩

theorem Drawn.next {n : Node} {orelse : List Value} (before : Drawn s passed t)
    (same : n.hasElse = !orelse.isEmpty) :
    (Rule.Loop.drawn orelse t).1 = loopNames s passed (!orelse.isEmpty) ∧
      Drawn s (passed ++ [n]) (Rule.Loop.drawn orelse t).2 := by
  obtain ⟨counted, names, issued⟩ := before
  obtain ⟨iterators, items, flags, -⟩ := uses_each passed
  have once : ∀ hint, uses hint [n] = n.hints.count hint := by simp [uses]
  have iterator := t.issues_one "__iter"
  have item := (t.fresh "__iter").2.issues_one "__item"
  have flag := ((t.fresh "__iter").2.fresh "__item").2.issues_one "__nobreak"
  unfold Rule.Loop.drawn loopNames
  cases orelse with
  | nil =>
    refine ⟨?_, fun hint => ?_, _, (issued.append iterator).append item⟩
    · simp [NameSupply.fresh_numbered, NameSupply.issued_fresh, counted, iterators, items]
    · simp only [List.isEmpty_nil, if_true, NameSupply.issued_fresh, counted, uses_append, once, Node.hints, same]
      simp [List.count_cons]
      omega
  | cons v rest =>
    refine ⟨?_, fun hint => ?_, _, ((issued.append iterator).append item).append flag⟩
    · simp [NameSupply.fresh_numbered, NameSupply.issued_fresh, counted, iterators, items, flags]
    · simp only [List.isEmpty_cons, Bool.false_eq_true, if_false, NameSupply.issued_fresh, counted, uses_append, once,
        Node.hints, same]
      simp [List.count_cons]
      omega

section Follows

variable {α β : Type} {before passing more : List Node} {a : α} {b : β}

-- A walk that passes further loops draws their names and gives `a`. One that fails has drawn the names of
-- the first of them.
def Follows (s : NameSupply) (c : Walk PassState RewriteError α) (before passing : List Node) (a : α) : Prop :=
  ∀ u : PassState, Drawn s before u.names →
    match c.run u with
    | (.ok b, v) => b = a ∧ Drawn s (before ++ passing) v.names
    | (.error _, v) => ∃ done, done <+: passing ∧ Drawn s (before ++ done) v.names

theorem follows_pure (a : α) : Follows s (pure a) before [] a := by
  intro u drawn
  exact ⟨rfl, (List.append_nil before).symm ▸ drawn⟩

theorem follows_ofAssign {outcome : Except NodeError α} (only : ∀ b, outcome = .ok b → b = a) :
    Follows s (Walk.ofAssign outcome) before [] a := by
  intro u drawn
  rw [← List.append_nil before] at drawn
  cases outcome with
  | ok b => exact ⟨only b rfl, drawn⟩
  | error e => exact ⟨[], List.nil_prefix, drawn⟩

theorem Follows.bind {c : Walk PassState RewriteError α} {next : α → Walk PassState RewriteError β}
    (first : Follows s c before passing a)
    (rest : (∃ u v, c.run u = (.ok a, v)) → Follows s (next a) (before ++ passing) more b) :
    Follows s (c >>= next) before (passing ++ more) b := by
  intro u drawn
  have one := first u drawn
  rw [Walk.run_bind]
  cases ran : c.run u with
  | mk outcome v =>
    rw [ran] at one
    cases outcome with
    | error e =>
      obtain ⟨done, part, drawn⟩ := one
      exact ⟨done, part.trans (List.prefix_append ..), drawn⟩
    | ok found =>
      obtain ⟨rfl, drawn⟩ := one
      have two := rest ⟨u, v, ran⟩ v drawn
      dsimp only
      generalize (next found).run v = result at two ⊢
      obtain ⟨outcome, w⟩ := result
      cases outcome with
      | error e =>
        obtain ⟨done, part, drawn⟩ := two
        rw [List.append_assoc] at drawn
        exact ⟨passing ++ done, (List.prefix_append_right_inj passing).mpr part, drawn⟩
      | ok last =>
        obtain ⟨same, drawn⟩ := two
        rw [List.append_assoc] at drawn
        exact ⟨same, drawn⟩

theorem Follows.last {c : Walk PassState RewriteError α} {next : α → Walk PassState RewriteError β}
    (first : Follows s c before passing a) (rest : Follows s (next a) (before ++ passing) [] b) :
    Follows s (c >>= next) before passing b := by
  have both := first.bind fun _ => rest
  rwa [List.append_nil] at both

end Follows

section Children

variable (enter : Node → Walk PassState RewriteError (Visit PassState RewriteError)) {rules : List String}
  {kind : String} {schema : Schema} {f : Field}

theorem items_follow {vs : List Value} (below : ∀ n, .node n ∈ vs → ∀ before,
      Follows s (n.transform enter) before (loops rules n.postorder) (lowered rules s before n))
    (before : List Node) : Follows s (Value.descendAll enter vs) before
      (loops rules (Value.postorderAll vs)) (items rules s before vs) := by
  induction vs generalizing before with
  | nil => exact follows_pure []
  | cons v rest ih =>
    have others := ih fun n member => below n (List.mem_cons_of_mem _ member)
    rw [Value.postorderAll, loops_append]
    cases v with
    | node n =>
      rw [Value.descendAll_node]
      exact (below n (List.mem_cons_self ..) before).bind fun _ => (others _).last (follows_pure _)
    | _ =>
      refine (others before).last ?_
      rw [items_other]
      · exact follows_pure _
      · intro _ same
        cases same

theorem slot_follows (member : schema ∈ coreRegistry.schemas) (field : f ∈ schema.fields) {held : Slot}
    (typed : held.Typed coreRegistry f) (below : ∀ child ∈ held.children, ∀ before,
      Follows s (child.transform enter) before (loops rules child.postorder) (lowered rules s before child))
    (before : List Node) : Follows s (held.descend enter kind f) before (loops rules held.postorder)
      (slot rules s before held) := by
  cases held with
  | value v =>
    have repeated : ∀ {form : List Value → Value} {vs : List Value},
        (∀ n, .node n ∈ vs → n ∈ (Slot.value v).children) →
        Follows s (do
          let vs ← Value.descendAll enter vs
          Walk.ofAssign (f.refill kind form vs)) before (loops rules (Value.postorderAll vs))
          (.value (form (items rules s before vs))) := by
      intro form vs inside
      refine (items_follow enter (fun n member => below n (inside n member)) before).last
        (follows_ofAssign fun after refilled => ?_)
      unfold Field.refill at refilled
      split at refilled
      · cases refilled
      · cases refilled
        rfl
    cases v with
    | list vs => exact repeated fun n member => (Value.mem_children (v := .list vs)).mpr (.inr ⟨vs, rfl, member⟩)
    | tuple vs => exact repeated fun n member => (Value.mem_children (v := .tuple vs)).mpr (.inr ⟨vs, rfl, member⟩)
    | node n =>
      obtain ⟨fits, inner⟩ := typed
      have notReplaced := Desugarer.unreplaced_field member field inner fits
      refine (below n (List.mem_singleton_self _) before).last (follows_ofAssign fun after installed => ?_)
      rw [lowered, place_unread (reading_other (by rwa [node_kind]))] at installed
      rcases Field.assign_exact.mp installed with ⟨-, absent, -⟩ | ⟨-, rfl⟩
      · cases absent
      · rfl
    | _ => exact follows_pure _
  | _ => exact follows_pure _

theorem slots_follow (member : schema ∈ coreRegistry.schemas) {fs : List Field} {ss : List Slot}
    (fields : ∀ f ∈ fs, f ∈ schema.fields) (typed : Slot.AllTyped coreRegistry fs ss)
    (below : ∀ held ∈ ss, ∀ child ∈ held.children, ∀ before,
      Follows s (child.transform enter) before (loops rules child.postorder) (lowered rules s before child))
    (before : List Node) : Follows s (Slot.descendAll enter kind fs ss) before
      (loops rules (Slot.postorderAll ss)) (slots rules s before ss) := by
  induction fs generalizing ss before with
  | nil =>
    cases Slot.allTyped_nil typed
    exact follows_pure []
  | cons f fs ih =>
    obtain ⟨held, rest, rfl, first, others⟩ := Slot.allTyped_cons typed
    rw [List.forall_mem_cons] at fields below
    rw [Slot.descendAll_cons, Slot.postorderAll, loops_append]
    refine (slot_follows enter member fields.1 first below.1 before).bind fun _ => ?_
    exact (ih fields.2 others below.2 _).last (follows_pure _)

end Children

section Leaving

variable {d : Desugarer} {rules : List String} {n m : Node} {before : List Node}

-- A rule gives what the reference has and draws the names of further loops, or it fails and draws none.
def Applies (s : NameSupply) (before passing : List Node) (r : Replacement) :
    Except RewriteError Replacement × NameSupply → Prop
  | (.ok found, t) => found = r ∧ Drawn s (before ++ passing) t
  | (.error _, t) => Drawn s before t

theorem forLoop_applies (drawn : Drawn s before t) (typed : m.WellTyped coreRegistry) (kind : m.kind = "For")
    (named : Rule.forLoopName ∈ rules) (flagged : m.hasElse = n.hasElse) :
    Applies s before [n] (place rules s before m) ((Rule.forLoop.rewrite coreRegistry m).run t) := by
  have schema := (core_kind (s := Core.forLoop) (by simp [Core.schemas]) typed).mp kind
  rcases Rule.forLoop_rewrite core_lowers typed schema t with
    ⟨loop, -, targeted, iterated, body, orelse, ran⟩ | ⟨field, -, -, ran⟩
  · have read := reading_loop kind named targeted iterated
    rw [body, orelse] at read
    have same : n.hasElse = !loop.orelse.isEmpty := by rw [← flagged, Node.hasElse, orelse]
    obtain ⟨names, after⟩ := drawn.next same
    rw [ran, names, place, read]
    exact ⟨rfl, after⟩
  · rw [ran]
    exact drawn

theorem assertion_applies (drawn : Drawn s before t) (typed : m.WellTyped coreRegistry)
    (kind : m.kind = "Assert") (named : Rule.assertName ∈ rules) :
    Applies s before [] (place rules s before m) ((Rule.assertion.rewrite coreRegistry m).run t) := by
  have schema := (core_kind (s := Core.assertion) (by simp [Core.schemas]) typed).mp kind
  rw [Rule.assertion_rewrite]
  rcases Rule.raiseUnless_cases core_lowers typed schema with ⟨test, tested, -, -, made⟩ | ⟨-, refused⟩
  · rw [made, place, reading_asserted kind named tested]
    exact ⟨rfl, (List.append_nil before).symm ▸ drawn⟩
  · rw [refused]
    exact drawn

theorem augAssign_applies {target : Node} (drawn : Drawn s before t) (typed : m.WellTyped coreRegistry)
    (kind : m.kind = "AugAssign") (named : Rule.augAssignName ∈ rules)
    (targeted : m.nodeAt? "target" = some target) (isName : target.kind = "Name") :
    Applies s before [] (place rules s before m) ((Rule.augAssign.rewrite coreRegistry m).run t) := by
  have schema := (core_kind (s := Core.augAssign) (by simp [Core.schemas]) typed).mp kind
  have targetSchema := (core_kind (s := Core.name) (by simp [Core.schemas])
    (Node.child_typed typed (Node.nodeAt_child targeted))).mp isName
  rw [Rule.augAssign_rewrite]
  rcases Rule.spelledOut_cases core_lowers typed schema targeted targetSchema with
    ⟨id, op, value, text, -, operated, -, valued, -, made⟩ | ⟨field, -, -, refused⟩ | ⟨-, refused⟩
  · rw [made, place, reading_augmented kind named targeted isName text operated valued]
    exact ⟨rfl, (List.append_nil before).symm ▸ drawn⟩
  · rw [refused]
    exact drawn
  · rw [refused]
    exact drawn

theorem applyMatch_follows (builtin : d.Builtin) (indexed : d.Indexed) (registry : d.registry = coreRegistry)
    (typed : m.WellTyped coreRegistry) (kind : m.kind = n.kind) (flagged : m.hasElse = n.hasElse) :
    Follows s (d.applyMatch m) before (loops d.ruleNames [n]) (place d.ruleNames s before m) := by
  intro u drawn
  have found := Desugarer.findMatch_exact builtin indexed typed
  rw [loops_one, ← kind]
  cases chosen : (Rule.for? m).filter fun rule => d.ruleNames.contains rule.name with
  | none =>
    have unmatched : ¬(m.kind = "For" ∧ Rule.forLoopName ∈ d.ruleNames) := fun both =>
      Option.filter_eq_none_iff.mp chosen .forLoop (by simp [Rule.for?, both.1])
        (List.contains_iff_mem.mpr both.2)
    rw [chosen] at found
    rw [Desugarer.applyMatch_none found, place_unread (reading_none chosen), if_neg unmatched, List.append_nil]
    exact ⟨rfl, drawn⟩
  | some rule =>
    rw [chosen] at found
    have named : rule.name ∈ d.ruleNames := List.contains_iff_mem.mp (Option.filter_eq_some_iff.mp chosen).2
    have applies : Applies s before (if m.kind = "For" ∧ Rule.forLoopName ∈ d.ruleNames then [n] else [])
        (place d.ruleNames s before m) ((rule.rewrite coreRegistry m).run u.names) := by
      rcases Desugarer.findMatch_rule builtin typed found with
        ⟨rfl, isLoop⟩ | ⟨rfl, isAssertion⟩ | ⟨rfl, isAugmented, target, targeted, isName⟩
      · rw [if_pos ⟨isLoop, named⟩]
        exact forLoop_applies drawn typed isLoop named flagged
      · rw [if_neg (by simp [isAssertion])]
        exact assertion_applies drawn typed isAssertion named
      · rw [if_neg (by simp [isAugmented])]
        exact augAssign_applies drawn typed isAugmented named targeted isName
    rw [Desugarer.applyMatch_some found, registry]
    generalize (rule.rewrite coreRegistry m).run u.names = done at applies
    obtain ⟨outcome, names⟩ := done
    cases outcome with
    | ok r => exact applies
    | error e => exact ⟨[], List.nil_prefix, (List.append_nil before).symm ▸ applies⟩

end Leaving

section Pass

variable {d : Desugarer} (builtin : d.Builtin) (registry : d.registry = coreRegistry)

include builtin registry

theorem children_typed {schema : Schema} {held after : List Slot} {u v : PassState}
    (typed : (Node.mk schema held).WellTyped coreRegistry)
    (ran : (Slot.descendAll (fun _ => pure (.descend d.applyMatch)) schema.kind schema.fields held).run u =
      (.ok after, v)) : (Node.mk schema after).WellTyped coreRegistry := by
  have passed : ∀ s ∈ held, ∀ c ∈ s.children, (d.pass c).Ends (d.Becomes c) fun _ => True := by
    intro s slot c inside
    have typedChild := Node.child_typed typed (Node.mem_children.mpr ⟨s, slot, inside⟩)
    exact (Desugarer.pass_ends builtin registry c typedChild).mono (fun _ => id) fun _ _ => trivial
  have ends : (Slot.descendAll (fun _ => pure (.descend d.applyMatch)) schema.kind schema.fields held).Ends
      (fun after => List.Forall₂ d.Holds schema.fields after ∧ List.Forall₂ Slot.Kept held after) fun _ => True :=
    Desugarer.slots_end _ typed.member (fun _ => id) typed.2 passed
  have fits := ends u
  rw [ran] at fits
  exact ⟨typed.member, (Desugarer.slots_hold fits.1).1⟩

-- The induction is on the tree: the rule runs on what the node was rebuilt to, behind the loops below it.
theorem pass_follows (indexed : d.Indexed) (n : Node) : n.WellTyped coreRegistry → ∀ before,
    Follows s (d.pass n) before (loops d.ruleNames n.postorder) (lowered d.ruleNames s before n) := by
  induction n using Node.children_induct with
  | step n ih =>
    intro typed before
    obtain ⟨schema, held⟩ := n
    have below : ∀ s ∈ held, ∀ c ∈ s.children, c ∈ (Node.mk schema held).children :=
      fun s slot c inside => Node.mem_children.mpr ⟨s, slot, inside⟩
    rw [Node.postorder_beneath, loops_append, Desugarer.pass, Node.transform_descend]
    refine (slots_follow (fun _ => pure (.descend d.applyMatch)) typed.member (fun _ => id) typed.2
      (fun s slot c inside => ih c (below s slot c inside) (Node.child_typed typed (below s slot c inside)))
      before).bind fun succeeded => ?_
    obtain ⟨u, v, ran⟩ := succeeded
    have flagged : (node d.ruleNames s before (.mk schema held)).hasElse = (Node.mk schema held).hasElse := node_hasElse
    exact applyMatch_follows builtin indexed registry (children_typed builtin registry typed ran) rfl flagged

theorem rewrite_follows (indexed : d.Indexed) {root : Node} (typed : root.WellTyped coreRegistry) (s : NameSupply) :
    match (d.rewrite root).run s with
    | (.ok t, rest) => lowered d.ruleNames s [] root = .ofNode t ∧ Drawn s (loops d.ruleNames root.postorder) rest
    | (.error _, rest) => ∃ done, done <+: loops d.ruleNames root.postorder ∧ Drawn s done rest := by
  have passed := pass_follows builtin registry indexed root typed [] ⟨s, 0⟩ (drawn_nil s)
  rw [Desugarer.rewrite_run]
  generalize (d.pass root).run ⟨s, 0⟩ = done at passed ⊢
  obtain ⟨outcome, v⟩ := done
  cases outcome with
  | error e => exact passed
  | ok r =>
    obtain ⟨same, drawn⟩ := passed
    rw [← same]
    cases r with
    | value w =>
      cases w with
      | node t => exact ⟨rfl, drawn⟩
      | _ => exact ⟨_, List.prefix_refl _, drawn⟩
    | _ => exact ⟨_, List.prefix_refl _, drawn⟩

theorem rewrite_lowered (indexed : d.Indexed) {root : Node} (typed : root.WellTyped coreRegistry)
    (whole : ∀ e, ¬d.Lacks root e) (s : NameSupply) :
    ∃ rest, (d.rewrite root).run s = (Desugarer.rooted root (.ok (lowered d.ruleNames s [] root)), rest) ∧
      Drawn s (loops d.ruleNames root.postorder) rest := by
  have passed := pass_follows builtin registry indexed root typed [] ⟨s, 0⟩ (drawn_nil s)
  have ends := Desugarer.pass_ends builtin registry root typed ⟨s, 0⟩
  rw [Desugarer.rewrite_run]
  generalize (d.pass root).run ⟨s, 0⟩ = done at passed ends ⊢
  obtain ⟨outcome, v⟩ := done
  cases outcome with
  | error e => exact absurd ends (whole e)
  | ok r =>
    obtain ⟨rfl, drawn⟩ := passed
    exact ⟨v.names, rfl, drawn⟩

end Pass

end Reference

namespace Desugarer

open Reference (lowered)

variable {root t : Node} {s rest : NameSupply}

-- The standard rules rewrite a tree into its reference: every loop has the numbers of the loops before it in
-- post-order, counted for flags among those with an `else`, and the supply has moved on by as many.
theorem rewrite_numbered (typed : root.WellTyped coreRegistry)
    (ran : ((standard coreRegistry).rewrite root).run s = (.ok t, rest)) :
    lowered (Rule.standard.map Rule.name) s [] root = .ofNode t ∧
    rest.issued "__iter" = s.issued "__iter" + root.postorder.countP (fun n => n.kind == "For") ∧
    rest.issued "__item" = s.issued "__item" + root.postorder.countP (fun n => n.kind == "For") ∧
    rest.issued "__nobreak" =
      s.issued "__nobreak" + root.postorder.countP (fun n => n.kind == "For" && n.hasElse) ∧
    ∀ hint, hint ∉ ["__iter", "__item", "__nobreak"] → rest.issued hint = s.issued hint := by
  have follows := Reference.rewrite_follows (standard_builtin coreRegistry) (standard_registry coreRegistry)
    (standard_indexed coreRegistry) typed s
  rw [ran] at follows
  obtain ⟨same, counted, -⟩ := follows
  obtain ⟨iterators, items, flags, others⟩ :=
    Reference.uses_each (root.postorder.filter fun n => n.kind == "For")
  rw [Reference.loops_all (by decide)] at counted
  refine ⟨same, ?_, ?_, ?_, fun hint other => ?_⟩
  · rw [counted, iterators, List.countP_eq_length_filter]
  · rw [counted, items, List.countP_eq_length_filter]
  · rw [counted, flags, List.countP_filter]
    simp only [Bool.and_comm]
  · rw [counted, others hint other, Nat.add_zero]

def whole (root : Node) : Bool := root.visited.all fun n =>
  (n.kind != "For" || n.isSet "target" && n.isSet "iter") && (n.kind != "Assert" || n.isSet "test") &&
    (n.kind != "AugAssign" || n.isSet "op" && n.isSet "value" &&
      (n.nodeAt? "target").all fun t => t.kind != "Name" || t.isSet "id")

theorem whole_parts {d : Desugarer} (parts : whole root = true) (e : RewriteError) : ¬d.Lacks root e := by
  intro lacks
  cases lacks with
  | loop rule met kind part missing =>
    have here := List.all_eq_true.mp parts _ met
    simp only [List.mem_cons, List.not_mem_nil, or_false] at part
    rcases part with rfl | rfl <;> simp [kind, missing] at here
  | augmented rule met kind target isName part missing =>
    have here := List.all_eq_true.mp parts _ met
    simp only [List.mem_cons, List.not_mem_nil, or_false] at part
    rcases part with rfl | rfl <;> simp [kind, missing] at here
  | nameless rule met kind target isName missing =>
    have here := List.all_eq_true.mp parts _ met
    simp [kind, target, isName, missing] at here
  | untested rule met kind missing =>
    have here := List.all_eq_true.mp parts _ met
    simp [kind, missing] at here

theorem rewrite_succeeds {d : Desugarer} (builtin : d.Builtin) (registry : d.registry = coreRegistry)
    (typed : root.WellTyped coreRegistry) (other : root.kind ≠ "For") (parts : whole root = true)
    (s : NameSupply) : ∃ t rest, (d.rewrite root).run s = (.ok t, rest) := by
  have passed := pass_ends builtin registry root typed ⟨s, 0⟩
  rw [rewrite_run]
  generalize (d.pass root).run ⟨s, 0⟩ = done at passed ⊢
  obtain ⟨outcome, v⟩ := done
  cases outcome with
  | error e => exact absurd passed (whole_parts parts e)
  | ok r =>
    cases (show d.Becomes root r from passed) with
    | kept typed settled same => exact ⟨_, _, rfl⟩
    | lowered kind done => exact ⟨_, _, rfl⟩
    | unrolled rule kind nonempty done => exact absurd kind other

theorem run_succeeds {d : Desugarer} (builtin : d.Builtin) (registry : d.registry = coreRegistry)
    (indexed : d.Indexed) (typed : root.WellTyped coreRegistry) (other : root.kind ≠ "For")
    (parts : whole root = true) (reference : lowered d.ruleNames s [] root = .ofNode t)
    (completed : t.finalize.2 = .ok ()) : ((d.run root).run s).1 = .ok t.finalize.1 := by
  obtain ⟨u, rest, ran⟩ := rewrite_succeeds builtin registry typed other parts s
  have follows := Reference.rewrite_follows builtin registry indexed typed s
  rw [ran] at follows
  cases follows.1.symm.trans reference
  refine ((run_exact builtin registry typed s).2 _).mpr ⟨t, by rw [ran], ?_⟩
  rw [← completed]

-- With four names already issued for iterators, the fifth goes to the loop.
theorem pollingLoop_numbered : ∃ t rest,
    ((standard coreRegistry).rewrite pollingLoop).run ⟨[("__iter", 4), ("__item", 2)]⟩ = (.ok t, rest) ∧
    t = Lowered.whileTrue ((Lowered.loop ⟨"__iter_4", "__item_2", some "__nobreak_0"⟩
      ⟨Lowered.store "x", Lowered.load "xs", [.node (Lowered.raiseUnless (Lowered.load "x") none)],
        [.node (.empty Core.leave)]⟩).map .node) ∧
    rest.issued "__iter" = 5 ∧ rest.issued "__item" = 3 ∧ rest.issued "__nobreak" = 1 ∧
    rest.issued "__tmp" = 0 := by
  obtain ⟨t, rest, ran⟩ := rewrite_succeeds (standard_builtin coreRegistry) (standard_registry coreRegistry)
    pollingLoop_typed (by decide) (by decide) ⟨[("__iter", 4), ("__item", 2)]⟩
  obtain ⟨same, iterators, items, flags, others⟩ := rewrite_numbered pollingLoop_typed ran
  refine ⟨t, rest, ran, ?_, iterators, items, flags, others "__tmp" (by decide)⟩
  have given : Replacement.ofNode t = .ofNode (Lowered.whileTrue _) := same.symm
  cases given
  rfl

end Desugarer

end TreeLowering
