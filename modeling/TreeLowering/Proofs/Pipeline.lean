import TreeLowering.Proofs.BottomUp
import TreeLowering.Proofs.Missing
import TreeLowering.Proofs.TranslatedTypes
import TreeLowering.Command

namespace TreeLowering

namespace Desugarer

-- Why a tree is not desugared: it lacks a part or is a loop itself, or a node of the rewritten tree misses a field.
inductive Refuses (d : Desugarer) (names : NameSupply) (root : Node) : RewriteError → Prop where
  | lacks {e : RewriteError} (lacks : d.Lacks root e) : Refuses d names root e
  | rootReplaced {replacement : String} (rule : .forLoop ∈ d.rules) (kind : root.kind = "For") :
      Refuses d names root (.rootReplaced "For" replacement)
  | incomplete {t m : Node} {rest : NameSupply} (rewritten : (d.rewrite root).run names = (.ok t, rest))
      (met : m ∈ t.visited) (misses : m.missing ≠ []) : Refuses d names root (.node (.incomplete m.kind m.missing))

variable {d : Desugarer} {root : Node}

def rooted (root : Node) : Except RewriteError Replacement → Except RewriteError Node
  | .error e => .error e
  | .ok (.value (.node n)) => .ok n
  | .ok r => .error (.rootReplaced root.kind (describe r))

theorem rewrite_run (names : NameSupply) : (d.rewrite root).run names =
    (rooted root ((d.pass root).run ⟨names, 0⟩).1, ((d.pass root).run ⟨names, 0⟩).2.names) := by
  change d.rewrite root names = _
  unfold rewrite rooted
  generalize (d.pass root).run ⟨names, 0⟩ = done
  obtain ⟨outcome, s⟩ := done
  cases outcome with
  | error e => rfl
  | ok r =>
    cases r with
    | value v => cases v <;> rfl
    | _ => rfl

theorem rewrite_ends (builtin : d.Builtin) (registry : d.registry = coreRegistry)
    (typed : root.WellTyped coreRegistry) (names : NameSupply) :
    match ((d.rewrite root).run names).1 with
    | .ok t => t.WellTyped coreRegistry ∧ d.Settled t
    | .error e => d.Refuses names root e := by
  have passed := pass_ends builtin registry root typed ⟨names, 0⟩
  rw [rewrite_run]
  generalize (d.pass root).run ⟨names, 0⟩ = done at passed ⊢
  obtain ⟨outcome, s⟩ := done
  cases outcome with
  | error e => exact .lacks passed
  | ok r =>
    cases (show d.Becomes root r from passed) with
    | kept typed settled same => exact ⟨typed, settled⟩
    | lowered kind done => exact ⟨done.1.2, done.2⟩
    | unrolled rule kind nonempty done =>
      change d.Refuses names root (.rootReplaced root.kind _)
      rw [kind]
      exact .rootReplaced rule kind

theorem finalize_settled (builtin : d.Builtin) {t : Node} (settled : d.Settled t) : d.Settled t.finalize.1 := by
  intro m met
  obtain ⟨n, before, alike⟩ := Node.finalize_visited t m met
  rw [findMatch_alike builtin alike]
  exact settled n before

theorem complete_ends (builtin : d.Builtin) (registry : d.registry = coreRegistry)
    (typed : root.WellTyped coreRegistry) (names : NameSupply) :
    match ((d.complete root).run names).1 with
    | .ok t => t.WellTyped coreRegistry ∧ t.Finished ∧ d.Settled t
    | .error e => d.Refuses names root e := by
  have rewritten := rewrite_ends builtin registry typed names
  unfold complete
  rw [Walk.run_bind]
  cases ran : (d.rewrite root).run names with
  | mk outcome rest =>
    rw [ran] at rewritten
    cases outcome with
    | error e => exact rewritten
    | ok t =>
      obtain ⟨typed, settled⟩ := rewritten
      have typedAfter := t.finalize_typed typed
      have settledAfter := finalize_settled builtin settled
      have finished := Node.finalize_finished core_plain t typed
      have outcome := Node.finalize_complete core_plain t typed
      dsimp only
      generalize t.finalize = done at typedAfter settledAfter finished outcome ⊢
      obtain ⟨after, result⟩ := done
      rcases outcome with ⟨rfl, -⟩ | ⟨m, met, misses, rfl⟩
      · exact ⟨typedAfter, finished rfl, settledAfter⟩
      · exact .incomplete ran met misses

theorem run_complete (builtin : d.Builtin) (registry : d.registry = coreRegistry)
    (typed : root.WellTyped coreRegistry) (names : NameSupply) :
    (d.run root).run names = (d.complete root).run names := by
  have completed := complete_ends builtin registry typed names
  unfold run
  rw [Walk.run_bind]
  generalize (d.complete root).run names = done at completed ⊢
  obtain ⟨outcome, s⟩ := done
  cases outcome with
  | error e => rfl
  | ok t =>
    have verified : d.verify t = .ok () := verify_ok.mpr completed.2.2
    dsimp only
    rw [verified]
    rfl

theorem run_exact (builtin : d.Builtin) (registry : d.registry = coreRegistry)
    (typed : root.WellTyped coreRegistry) (names : NameSupply) :
    ((d.run root).run names).2 = ((d.rewrite root).run names).2 ∧
    ∀ after, ((d.run root).run names).1 = .ok after ↔
      ∃ t, ((d.rewrite root).run names).1 = .ok t ∧ t.finalize = (after, .ok ()) := by
  rw [run_complete builtin registry typed, complete, Walk.run_bind]
  generalize (d.rewrite root).run names = done
  obtain ⟨outcome, rest⟩ := done
  cases outcome with
  | error e => exact ⟨rfl, fun after => iff_of_false nofun (by rintro ⟨t, same, -⟩; cases same)⟩
  | ok t =>
    dsimp only
    cases finalized : t.finalize with
    | mk done outcome =>
      cases outcome with
      | error e =>
        refine ⟨rfl, fun after => iff_of_false nofun ?_⟩
        rintro ⟨u, same, completed⟩
        cases same
        rw [finalized] at completed
        cases completed
      | ok _ =>
        refine ⟨rfl, fun after => ?_⟩
        constructor
        · intro same
          cases same
          exact ⟨t, rfl, finalized⟩
        · rintro ⟨u, same, completed⟩
          cases same
          rw [finalized] at completed
          cases completed
          rfl

end Desugarer

open Desugarer in
theorem apply_verify {tree : Node} (rules : Option (List String)) (typed : tree.WellTyped coreRegistry) :
    DesugarConfig.apply ⟨rules, true⟩ tree = DesugarConfig.apply ⟨rules, false⟩ tree := by
  have same : ∀ d : Desugarer, d.Builtin → d.registry = coreRegistry →
      ((d.run tree).run .initial).1 = ((d.complete tree).run .initial).1 :=
    fun d builtin registry => by rw [run_complete builtin registry typed]
  cases rules with
  | none => exact same _ (standard_builtin coreRegistry) (standard_registry coreRegistry)
  | some names =>
    change (ofNames coreRegistry names >>= fun d => ((d.run tree).run .initial).1) =
      ofNames coreRegistry names >>= fun d => ((d.complete tree).run .initial).1
    cases made : ofNames coreRegistry names with
    | error e => rfl
    | ok d =>
      obtain ⟨d', isD, builtin, registry⟩ := ofNames_builtin (ofNames_known made)
      cases made.symm.trans isD
      exact same d builtin registry

namespace Desugarer

-- Whatever built-in rules are chosen, nothing that they match is left by a rewriting, nor after completion;
-- so the final check changes nothing.
theorem no_residue (names : List String) (known : ∀ name ∈ names, (Rule.ofName? name).isSome) (tree : Node)
    (typed : tree.WellTyped coreRegistry) :
    (∃ d, ofNames coreRegistry names = .ok d ∧ ∀ supply t rest, (d.rewrite tree).run supply = (.ok t, rest) →
      d.verify t = .ok () ∧ (t.finalize.2 = .ok () → d.verify t.finalize.1 = .ok ())) ∧
    ∀ rules, DesugarConfig.apply ⟨rules, true⟩ tree = DesugarConfig.apply ⟨rules, false⟩ tree := by
  obtain ⟨d, made, builtin, registry⟩ := ofNames_builtin (r := coreRegistry) known
  refine ⟨⟨d, made, fun supply t rest ran => ?_⟩, fun rules => apply_verify rules typed⟩
  have rewritten := rewrite_ends builtin registry typed supply
  rw [ran] at rewritten
  obtain ⟨-, settled⟩ := rewritten
  exact ⟨verify_ok.mpr settled, fun _ => verify_ok.mpr (finalize_settled builtin settled)⟩

-- An assertion in a loop with an `else` that leaves the loop around it.
def scan : Node :=
  .mk Core.forLoop [.value (.node (Lowered.store "x")), .value (.node (Lowered.load "xs")),
    .value (.ofNodes [.mk Core.assertion [.value (.node (Lowered.load "x")), .unset]]),
    .value (.ofNodes [.empty Core.leave]), .unset]

def pollingLoop : Node := Lowered.whileTrue [.node scan]

theorem ruleless_settled (n : Node) : (empty coreRegistry).Settled n := by
  intro m _
  rw [findMatch_find (fun _ chosen => by cases chosen), List.find?_eq_none.mpr fun rule candidate => ?_]
  cases candidate_member candidate

theorem ruleless_done {s : Schema} {slots : List Slot} {kind : String} (lowering : s ∈ Core.schemas)
    (isKind : s.isSubkindOf kind = true) (all : List.Forall₂ (empty coreRegistry).Holds s.fields slots) :
    (empty coreRegistry).Done kind (.mk s slots) :=
  ⟨⟨isKind, core_member lowering, (slots_hold all).1⟩, ruleless_settled _⟩

theorem ruleless_builtin : (empty coreRegistry).Builtin := nofun

theorem scan_done : (empty coreRegistry).Done "stmt" scan := by
  have read : ∀ {id}, Text.isIdentifier id = true → (empty coreRegistry).Done "expr" (Lowered.load id) :=
    load_done ruleless_builtin
  have target : (empty coreRegistry).Done "expr" (Lowered.store "x") := store_done ruleless_builtin rfl
  have asserted : (empty coreRegistry).Done "stmt"
      (.mk Core.assertion [.value (.node (Lowered.load "x")), .unset]) :=
    ruleless_done (by simp [Core.schemas]) rfl (.cons (one_holds (read rfl)) (.cons unset_holds .nil))
  have left : (empty coreRegistry).Done "stmt" (.empty Core.leave) :=
    leaf_done ruleless_builtin (by simp [Core.schemas]) (by decide) rfl rfl
  exact ruleless_done (by simp [Core.schemas]) rfl
    (.cons (one_holds target) (.cons (one_holds (read rfl))
      (.cons (someStatements_hold (List.cons_ne_nil _ _) (allDone_one asserted))
        (.cons (statements_hold (allDone_one left)) (.cons unset_holds .nil)))))

theorem pollingLoop_typed : pollingLoop.WellTyped coreRegistry :=
  (whileTrue_done ruleless_builtin (List.cons_ne_nil _ _) (allDone_one scan_done)).1.2

theorem pollingLoop_settled :
    (∃ d, ofNames coreRegistry ["assert", "for-loop", "assert"] = .ok d ∧ ∀ supply t rest,
      (d.rewrite pollingLoop).run supply = (.ok t, rest) →
        d.verify t = .ok () ∧ (t.finalize.2 = .ok () → d.verify t.finalize.1 = .ok ())) ∧
    ∀ rules, DesugarConfig.apply ⟨rules, true⟩ pollingLoop = DesugarConfig.apply ⟨rules, false⟩ pollingLoop :=
  no_residue ["assert", "for-loop", "assert"] (by decide) pollingLoop pollingLoop_typed

-- Translated trees are well-typed; and a well-typed tree is desugared into a well-typed, complete one, or
-- the refusal names what the tree lacks, or what a node of the rewritten tree misses.
theorem desugared_or_refused (names : List String) (known : ∀ name ∈ names, (Rule.ofName? name).isSome) :
    (∀ text tree, translate text = .ok tree → tree.WellTyped coreRegistry) ∧
    ∃ d, ofNames coreRegistry names = .ok d ∧ ∀ tree, tree.WellTyped coreRegistry → ∀ supply,
      (∃ t rest, (d.run tree).run supply = (.ok t, rest) ∧ t.WellTyped coreRegistry ∧ t.Finished) ∨
      ∃ e rest, (d.run tree).run supply = (.error e, rest) ∧ d.Refuses supply tree e := by
  obtain ⟨d, made, builtin, registry⟩ := ofNames_builtin (r := coreRegistry) known
  refine ⟨fun text tree => translate_typed, d, made, fun tree typed supply => ?_⟩
  have completed := complete_ends builtin registry typed supply
  rw [run_complete builtin registry typed]
  generalize (d.complete tree).run supply = done at completed ⊢
  obtain ⟨outcome, rest⟩ := done
  cases outcome with
  | ok t => exact .inl ⟨t, rest, rfl, completed.1, completed.2.1⟩
  | error e => exact .inr ⟨e, rest, rfl, completed⟩

theorem pollingLoop_desugared : ∃ d, ofNames coreRegistry ["assert", "for-loop", "assert"] = .ok d ∧ ∀ supply,
    (∃ t rest, (d.run pollingLoop).run supply = (.ok t, rest) ∧ t.WellTyped coreRegistry ∧ t.Finished) ∨
    ∃ e rest, (d.run pollingLoop).run supply = (.error e, rest) ∧ d.Refuses supply pollingLoop e := by
  obtain ⟨-, d, made, outcome⟩ := desugared_or_refused ["assert", "for-loop", "assert"] (by decide)
  exact ⟨d, made, outcome pollingLoop pollingLoop_typed⟩

end Desugarer

end TreeLowering
