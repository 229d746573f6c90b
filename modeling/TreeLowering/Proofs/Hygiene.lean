import TreeLowering.Proofs.Numbering
import TreeLowering.Proofs.ClearCode

namespace TreeLowering

def Value.texts : Value → List String
  | .str text => [text]
  | .list items | .tuple items => items.filterMap Value.text?
  | _ => []

namespace Node

-- What a node names by itself: the texts of its identifier fields, and the first part of a dotted name that it
-- imports.
def ownIdentifiers (n : Node) : List String :=
  (n.fields.flatMap fun field =>
    if field.1.type = .identifier then (field.2.value?.map Value.texts).getD [] else []) ++
  if n.kind = "alias" then
    (n.textAt? "name").toList.map fun name => String.ofList (name.toList.takeWhile fun c => c != '.')
  else []

def identifiers (n : Node) : List String := n.visited.flatMap ownIdentifiers

-- The names for the loops of a tree, when the numbers start from zero.
def reserved (n : Node) : List String :=
  let loops := n.visited.countP fun m => m.kind == "For"
  let withElse := n.visited.countP fun m => m.kind == "For" && m.hasElse
  (List.range loops).map (NameSupply.numbered "__iter") ++ (List.range loops).map (NameSupply.numbered "__item") ++
    (List.range withElse).map (NameSupply.numbered "__nobreak")

variable {n root : Node} {name : String}

theorem named_identifier (typed : root.WellTyped coreRegistry) (met : n ∈ root.visited)
    (named : Meaning.nameOf? n = some name) : name ∈ root.identifiers := by
  refine List.mem_flatMap.mpr ⟨n, met, List.mem_append_left _ ?_⟩
  unfold Meaning.nameOf? at named
  split at named
  next kind =>
    have typedNode := visited_typed typed met
    have schema := (core_kind (s := Core.name) (by simp [Core.schemas]) typedNode).mp kind
    obtain ⟨_, slots⟩ := n
    cases schema
    obtain ⟨id, slots, rfl, -, typedNode⟩ := Slot.allTyped_cons typedNode.2
    obtain ⟨context, slots, rfl, -, typedNode⟩ := Slot.allTyped_cons typedNode
    cases id with
    | value v =>
      cases v with
      | str text =>
        cases named
        exact List.mem_cons_self ..
      | _ => cases named
    | _ => cases named
  next => cases named

end Node

namespace Reference

variable {root : Node} {rules : List String} {passed : List Node} {rest : NameSupply} {names : List String}
  {name : String}

theorem uses_prefix {done all : List Node} (part : done <+: all) (hint : String) : uses hint done ≤ uses hint all := by
  obtain ⟨more, rfl⟩ := part
  rw [uses_append]
  exact Nat.le_add_right ..

theorem reserved_exact (standard : Rule.forLoopName ∈ rules) : name ∈ root.reserved ↔
    ∃ hint k, k < uses hint (loops rules root.postorder) ∧ name = NameSupply.numbered hint k := by
  obtain ⟨iterators, items, flags, others⟩ := uses_each (loops rules root.postorder)
  have walked := loops_all standard root.postorder
  have count : ∀ p : Node → Bool, root.visited.countP p = root.postorder.countP p := fun p =>
    (root.postorder_perm.countP_eq p).symm
  have all : root.visited.countP (fun m => m.kind == "For") = (loops rules root.postorder).length := by
    rw [count, walked, List.countP_eq_length_filter]
  have flagged : root.visited.countP (fun m => m.kind == "For" && m.hasElse) =
      (loops rules root.postorder).countP Node.hasElse := by
    rw [count, walked, List.countP_filter]
    simp only [Bool.and_comm]
  unfold Node.reserved
  simp only [List.mem_append, List.mem_map, List.mem_range, all, flagged]
  constructor
  · intro found
    rcases found with (⟨k, below, rfl⟩ | ⟨k, below, rfl⟩) | ⟨k, below, rfl⟩
    · exact ⟨"__iter", k, iterators ▸ below, rfl⟩
    · exact ⟨"__item", k, items ▸ below, rfl⟩
    · exact ⟨"__nobreak", k, flags ▸ below, rfl⟩
  · intro found
    obtain ⟨hint, k, below, rfl⟩ := found
    by_cases known : hint ∈ ["__iter", "__item", "__nobreak"]
    · simp only [List.mem_cons, List.not_mem_nil, or_false] at known
      rcases known with rfl | rfl | rfl
      · exact .inl (.inl ⟨k, iterators ▸ below, rfl⟩)
      · exact .inl (.inr ⟨k, items ▸ below, rfl⟩)
      · exact .inr ⟨k, flags ▸ below, rfl⟩
    · rw [others hint known] at below
      omega

theorem drawn_names (drawn : Drawn .initial passed rest) (issues : NameSupply.initial.Issues names rest) :
    name ∈ names ↔ ∃ hint k, k < uses hint passed ∧ name = NameSupply.numbered hint k := by
  rw [NameSupply.issues_exact issues]
  simp only [NameSupply.issued_initial, drawn.counted, Nat.zero_le, true_and, Nat.zero_add]

end Reference

namespace Desugarer

variable {d : Desugarer} {root : Node}

-- Whatever comes of a rewriting, it has drawn the names of some of the loops, and of all when it succeeds.
theorem run_draws (builtin : d.Builtin) (registry : d.registry = coreRegistry) (indexed : d.Indexed)
    (typed : root.WellTyped coreRegistry) (s : NameSupply) :
    ∃ done, done <+: Reference.loops d.ruleNames root.postorder ∧
      Reference.Drawn s done ((d.run root).run s).2 ∧
      ∀ after, ((d.run root).run s).1 = .ok after → done = Reference.loops d.ruleNames root.postorder := by
  have follows := Reference.rewrite_follows builtin registry indexed typed s
  obtain ⟨supply, succeeds⟩ := run_exact builtin registry typed s
  rw [supply]
  generalize (d.rewrite root).run s = result at follows succeeds ⊢
  obtain ⟨outcome, rest⟩ := result
  cases outcome with
  | error e =>
    obtain ⟨done, part, drawn⟩ := follows
    refine ⟨done, part, drawn, fun after ok => ?_⟩
    obtain ⟨t, impossible, -⟩ := (succeeds after).mp ok
    cases impossible
  | ok t => exact ⟨_, List.prefix_refl _, follows.2, fun _ _ => rfl⟩

theorem settled_reserved (builtin : d.Builtin) (indexed : d.Indexed) (rule : Rule.forLoopName ∈ d.ruleNames)
    (typed : root.WellTyped coreRegistry) (settled : d.Settled root) : root.reserved = [] := by
  have other : ∀ m ∈ root.visited, m.kind ≠ "For" := by
    intro m met kind
    have found := findMatch_exact builtin indexed (Node.visited_typed typed met)
    rw [settled m met, Except.ok.injEq] at found
    exact Option.filter_eq_none_iff.mp found.symm .forLoop (by simp [Rule.for?, kind])
      (List.contains_iff_mem.mpr rule)
  have none : root.visited.countP (fun m => m.kind == "For") = 0 :=
    List.countP_eq_zero.mpr fun m met => by simpa using other m met
  have noneFlagged : root.visited.countP (fun m => m.kind == "For" && m.hasElse) = 0 :=
    List.countP_eq_zero.mpr fun m met => by simp [other m met]
  unfold Node.reserved
  rw [none, noneFlagged]
  rfl

-- A standard run from the initial supply hands out names that are reserved for the loops of its tree, all of
-- them if it succeeds. So none of them is an identifier of the tree, and code in the tree does not see the
-- variables of the lowered loops, unless the tree itself uses a reserved name; and there is nothing to hand out
-- for a tree that was desugared.
theorem handed_out_reserved (typed : root.WellTyped coreRegistry) :
    (∃ names, NameSupply.initial.Issues names (((standard coreRegistry).run root).run .initial).2) ∧
    ∀ names, NameSupply.initial.Issues names (((standard coreRegistry).run root).run .initial).2 →
      (∀ name ∈ names, name ∈ root.reserved) ∧
      (∀ id ∈ root.identifiers, id ∉ root.reserved → id ∉ names) ∧
      ((∀ id ∈ root.identifiers, id ∉ root.reserved) → Meaning.Clear names.contains root) ∧
      ∀ t, (((standard coreRegistry).run root).run .initial).1 = .ok t →
        (∀ name ∈ root.reserved, name ∈ names) ∧ t.reserved = [] := by
  have member : Rule.forLoopName ∈ (standard coreRegistry).ruleNames := by decide
  obtain ⟨done, part, drawn, all⟩ := run_draws (standard_builtin coreRegistry) (standard_registry coreRegistry)
    (standard_indexed coreRegistry) typed .initial
  refine ⟨drawn.issued, fun names issues => ?_⟩
  have reserved : ∀ name ∈ names, name ∈ root.reserved := by
    intro name handed
    obtain ⟨hint, k, below, same⟩ := (Reference.drawn_names drawn issues).mp handed
    exact (Reference.reserved_exact member).mpr
      ⟨hint, k, Nat.lt_of_lt_of_le below (Reference.uses_prefix part hint), same⟩
  refine ⟨reserved, fun id _ free handed => free (reserved id handed), fun free m met => ?_, fun t ok => ⟨?_, ?_⟩⟩
  · rw [Option.filter_eq_none_iff]
    intro name named handed
    exact free name (Node.named_identifier typed met named) (reserved name (List.contains_iff_mem.mp handed))
  · intro name isReserved
    rw [Reference.drawn_names drawn issues, all t ok]
    exact (Reference.reserved_exact member).mp isReserved
  · have ends := complete_ends (standard_builtin coreRegistry) (standard_registry coreRegistry) typed .initial
    rw [← run_complete (standard_builtin coreRegistry) (standard_registry coreRegistry) typed, ok] at ends
    exact settled_reserved (standard_builtin coreRegistry) (standard_indexed coreRegistry) member ends.1 ends.2.2

theorem pollingLoop_hygienic : ∃ names,
    NameSupply.initial.Issues names (((standard coreRegistry).run pollingLoop).run .initial).2 ∧
    (∀ name ∈ names, name ∈ ["__iter_0", "__item_0", "__nobreak_0"]) ∧
    Meaning.Clear names.contains pollingLoop := by
  obtain ⟨⟨names, issues⟩, all⟩ := handed_out_reserved pollingLoop_typed
  obtain ⟨reserved, -, clear, -⟩ := all names issues
  exact ⟨names, issues, reserved, clear (by decide)⟩

-- A loop over the items of a variable that is named like the first iterator.
def clashing : Node := Lowered.whileTrue [.node (.mk Core.forLoop [.value (.node (Lowered.store "x")),
  .value (.node (Lowered.load "__iter_0")), .value (.ofNodes [.empty Core.leave]), .unset, .unset])]

theorem clashing_typed : clashing.WellTyped coreRegistry := by
  have left : (empty coreRegistry).Done "stmt" (.empty Core.leave) :=
    leaf_done ruleless_builtin (by simp [Core.schemas]) (by decide) rfl rfl
  refine (whileTrue_done ruleless_builtin (List.cons_ne_nil _ _) (allDone_one ?_)).1.2
  exact ruleless_done (by simp [Core.schemas]) rfl
    (.cons (one_holds (store_done ruleless_builtin rfl)) (.cons (one_holds (load_done ruleless_builtin rfl))
      (.cons (someStatements_hold (List.cons_ne_nil _ _) (allDone_one left))
        (.cons unset_holds (.cons unset_holds .nil)))))

-- The lowered loop overwrites that variable.
theorem clashing_captured : clashing.WellTyped coreRegistry ∧ "__iter_0" ∈ clashing.identifiers ∧
    (∃ names, NameSupply.initial.Issues names (((standard coreRegistry).run clashing).run .initial).2 ∧
      "__iter_0" ∈ names) ∧
    (((standard coreRegistry).run clashing).run .initial).1 =
      .ok (Lowered.whileTrue ((Lowered.loop ⟨"__iter_0", "__item_0", none⟩
        ⟨Lowered.store "x", Lowered.load "__iter_0", [.node (.empty Core.leave)], []⟩).map .node)).finalize.1 := by
  have ran := run_succeeds (standard_builtin coreRegistry) (standard_registry coreRegistry)
    (standard_indexed coreRegistry) clashing_typed (by decide) (by decide) (s := .initial)
    (t := Lowered.whileTrue ((Lowered.loop ⟨"__iter_0", "__item_0", none⟩
      ⟨Lowered.store "x", Lowered.load "__iter_0", [.node (.empty Core.leave)], []⟩).map .node)) rfl rfl
  obtain ⟨done, -, drawn, all⟩ := run_draws (standard_builtin coreRegistry) (standard_registry coreRegistry)
    (standard_indexed coreRegistry) clashing_typed .initial
  obtain ⟨names, issues⟩ := drawn.issued
  refine ⟨clashing_typed, by decide, ⟨names, issues, ?_⟩, ran⟩
  rw [all _ ran] at drawn
  exact (Reference.drawn_names drawn issues).mpr ⟨"__iter", 0, by decide, rfl⟩

end Desugarer

end TreeLowering
