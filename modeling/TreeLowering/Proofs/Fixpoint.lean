import TreeLowering.Proofs.Pipeline

namespace TreeLowering

namespace Walk

variable {α β ε : Type}

def Grows (c : Walk PassState ε α) : Prop := ∀ s, s.applied ≤ (c.run s).2.applied

-- A part of a pass that can be told from the number of applied rules: where `quiet` holds it gives `a` and
-- leaves the state alone, and where it succeeds without applying a rule, `quiet` holds.
structure Tells (c : Walk PassState ε α) (a : α) (quiet : Prop) : Prop where
  grows : c.Grows
  still : quiet → ∀ s, c.run s = (.ok a, s)
  only (s : PassState) (b : α) : (c.run s).1 = .ok b → (c.run s).2.applied = s.applied → quiet

theorem tells_pure (a : α) : Tells (pure a : Walk PassState ε α) a True where
  grows _ := Nat.le_refl _
  still _ _ := rfl
  only _ _ _ _ := trivial

theorem Grows.bind {c : Walk PassState ε α} {next : α → Walk PassState ε β} (first : c.Grows)
    (rest : ∀ a, (next a).Grows) : (c >>= next).Grows := by
  intro s
  have before := first s
  rw [run_bind]
  generalize c.run s = done at before
  obtain ⟨outcome, t⟩ := done
  cases outcome with
  | ok a => exact Nat.le_trans before (rest a t)
  | error e => exact before

-- Both parts are between the first count and the last, so they are quiet together.
theorem Tells.bind {c : Walk PassState ε α} {next : α → Walk PassState ε β} {a : α} {b : β}
    {quiet calm : Prop} (first : c.Tells a quiet) (grows : ∀ x, (next x).Grows)
    (rest : (next a).Tells b calm) : (c >>= next).Tells b (quiet ∧ calm) where
  grows := first.grows.bind grows
  still both s := by
    rw [run_ok (first.still both.1 s)]
    exact rest.still both.2 s
  only s x succeeded same := by
    have before := first.grows s
    rw [run_bind] at succeeded same
    cases done : c.run s with
    | mk outcome t =>
      rw [done] at before succeeded same
      cases outcome with
      | error e => cases succeeded
      | ok y =>
        dsimp only at before succeeded same
        have after := grows y t
        have unchanged : t.applied = s.applied := by omega
        have holds : quiet := first.only s y (by rw [done]) (by rw [done]; exact unchanged)
        have calmRun := first.still holds s
        rw [done] at calmRun
        cases calmRun
        exact ⟨holds, rest.only s x succeeded same⟩

theorem Tells.both {γ : Type} {c : Walk PassState ε α} {d : Walk PassState ε β} {a : α} {b : β}
    {quiet calm : Prop} (first : c.Tells a quiet) (second : d.Tells b calm) (f : α → β → γ) :
    (do return f (← c) (← d) : Walk PassState ε γ).Tells (f a b) (quiet ∧ calm) := by
  have last : ∀ x, (do return f x (← d) : Walk PassState ε γ).Tells (f x b) (calm ∧ True) :=
    fun x => second.bind (fun y => (tells_pure _).grows) (tells_pure _)
  have whole := first.bind (fun x => (last x).grows) (last a)
  rwa [and_true] at whole

theorem Tells.congr {c : Walk PassState ε α} {a : α} {quiet calm : Prop} (tells : c.Tells a quiet)
    (same : quiet ↔ calm) : c.Tells a calm := (propext same) ▸ tells

theorem ofAssign_grows [OfNodeError ε] (outcome : Except NodeError α) :
    Grows (ofAssign (ε := ε) outcome : Walk PassState ε α) := by
  cases outcome <;> exact fun _ => Nat.le_refl _

theorem ofAssign_tells [OfNodeError ε] {outcome : Except NodeError α} {a : α} (ok : outcome = .ok a) :
    Tells (ofAssign (ε := ε) outcome : Walk PassState ε α) a True := by
  rw [ok]
  exact tells_pure a

end Walk

theorem Field.refill_same {f : Field} {kind : String} {form : List Value → Value} {items : List Value}
    (isItems : (form items).items? = some items) (fits : f.Fits (form items)) :
    f.refill kind form items = .ok (.value (form items)) := by
  unfold Field.refill
  refine if_neg fun emptied => ?_
  rw [Bool.and_eq_true, List.isEmpty_iff, beq_iff_eq] at emptied
  obtain ⟨empty, one⟩ := emptied
  unfold Field.Fits at fits
  rw [one] at fits
  obtain ⟨_, found, nonempty, -⟩ := fits
  cases isItems.symm.trans found
  exact nonempty rfl empty

namespace Desugarer

variable {d : Desugarer} {n : Node}

theorem settled_exact : d.Settled n ↔ d.findMatch? n = .ok none ∧ ∀ child ∈ n.children, d.Settled child :=
  ⟨fun settled => ⟨settled n n.self_visited,
      fun child inside m met => settled m (Node.mem_visited.mpr (.inr ⟨child, inside, met⟩))⟩,
    fun both => settled_node both.1 both.2⟩

-- A rule counts when it is applied, whether it succeeds or not.
theorem applyMatch_tells (d : Desugarer) (n : Node) :
    (d.applyMatch n).Tells (.ofNode n) (d.findMatch? n = .ok none) := by
  cases found : d.findMatch? n with
  | error e =>
    have failed : ∀ s, (d.applyMatch n).run s = (.error (.pattern e), s) := by
      intro s
      unfold applyMatch
      rw [found]
      rfl
    refine ⟨fun s => ?_, nofun, fun s b succeeded => ?_⟩
    · simp only [failed, Nat.le_refl]
    · rw [failed] at succeeded
      cases succeeded
  | ok chosen =>
    cases chosen with
    | none =>
      refine ⟨fun s => ?_, fun _ => applyMatch_none found, fun _ _ _ _ => rfl⟩
      simp only [applyMatch_none found, Nat.le_refl]
    | some rule =>
      refine ⟨fun s => ?_, nofun, fun s b _ same => ?_⟩
      · rw [applyMatch_some found]
        exact Nat.le_succ _
      · rw [applyMatch_some found] at same
        exact absurd same (Nat.succ_ne_self _)

section Descent

variable (enter : Node → Walk PassState RewriteError (Visit PassState RewriteError)) {r : Registry}

theorem elements_tell {items : List Value}
    (below : ∀ n, .node n ∈ items → (n.transform enter).Tells (.ofNode n) (d.Settled n)) :
    (Value.descendAll enter items).Tells items (∀ n, .node n ∈ items → d.Settled n) := by
  induction items with
  | nil => exact (Walk.tells_pure _).congr (by simp)
  | cons v rest ih =>
    have others := ih fun n inside => below n (List.mem_cons_of_mem _ inside)
    cases v with
    | node n =>
      have first := below n (List.mem_cons_self ..)
      rw [Value.descendAll_node]
      exact (first.both others fun r rest => r.elements ++ rest).congr (by simp)
    | _ => exact (others.bind (fun y => (Walk.tells_pure _).grows) (Walk.tells_pure _)).congr (by simp)

theorem slot_tells (kind : String) {f : Field} {s : Slot} (typed : s.Typed r f)
    (below : ∀ child ∈ s.children, (child.transform enter).Tells (.ofNode child) (d.Settled child)) :
    (s.descend enter kind f).Tells s (∀ child ∈ s.children, d.Settled child) := by
  cases s with
  | value v =>
    obtain ⟨fits, -⟩ := typed
    have sequence : ∀ form items, v = form items → (form items).items? = some items →
        (∀ child, child ∈ v.children ↔ .node child ∈ items) →
        (do
          let items ← Value.descendAll enter items
          Walk.ofAssign (f.refill kind form items) : Walk PassState RewriteError Slot).Tells (.value v)
            (∀ child ∈ v.children, d.Settled child) := by
      intro form items same isItems held
      subst same
      have elements := elements_tell (d := d) enter fun n inside => below n ((held n).mpr inside)
      have refilled : f.refill kind form items = .ok (.value (form items)) := Field.refill_same isItems fits
      exact (elements.bind (fun x => Walk.ofAssign_grows _) (Walk.ofAssign_tells refilled)).congr
        (by simp only [held, and_true])
    cases v with
    | node n =>
      have child := below n (List.mem_singleton_self _)
      have installed : f.install kind (.ofNode n) = .ok (.value (.node n)) := Field.assign_value.mpr fits
      change (do
        let r ← n.transform enter
        Walk.ofAssign (f.install kind r) : Walk PassState RewriteError Slot).Tells _ _
      exact (child.bind (fun r => Walk.ofAssign_grows _) (Walk.ofAssign_tells installed)).congr
        (by simp [Slot.children, Value.children])
    | list items => exact sequence .list items rfl rfl fun child => by simp [Value.mem_children, Value.items?]
    | tuple items => exact sequence .tuple items rfl rfl fun child => by simp [Value.mem_children, Value.items?]
    | _ => exact (Walk.tells_pure _).congr (by simp [Slot.children, Value.children])
  | _ => exact (Walk.tells_pure _).congr (by simp [Slot.children])

theorem slots_tell (kind : String) {fs : List Field} {ss : List Slot} (typed : Slot.AllTyped r fs ss)
    (below : ∀ s ∈ ss, ∀ child ∈ s.children, (child.transform enter).Tells (.ofNode child) (d.Settled child)) :
    (Slot.descendAll enter kind fs ss).Tells ss (∀ s ∈ ss, ∀ child ∈ s.children, d.Settled child) := by
  induction fs generalizing ss with
  | nil =>
    cases Slot.allTyped_nil typed
    exact (Walk.tells_pure _).congr (by simp)
  | cons f fs ih =>
    obtain ⟨s, rest, rfl, first, others⟩ := Slot.allTyped_cons typed
    rw [List.forall_mem_cons] at below
    have later := ih others below.2
    rw [Slot.descendAll_cons, List.forall_mem_cons]
    exact (slot_tells enter kind first below.1).both later fun s ss => s :: ss

end Descent

-- The induction is on the tree: children that come back as they are leave a node to be asked about as it is.
theorem pass_tells {r : Registry} (d : Desugarer) (n : Node) :
    n.WellTyped r → (d.pass n).Tells (.ofNode n) (d.Settled n) := by
  induction n using Node.children_induct with
  | step n ih =>
    intro typed
    obtain ⟨schema, slots⟩ := n
    unfold pass
    rw [Node.transform_descend]
    have children := slots_tell (d := d) (fun _ => pure (.descend d.applyMatch)) schema.kind typed.2
      fun s slot child inside => by
        have member : child ∈ (Node.mk schema slots).children := Node.mem_children.mpr ⟨s, slot, inside⟩
        exact ih child member (Node.child_typed typed member)
    refine (children.bind (fun x => (applyMatch_tells d _).grows) (applyMatch_tells d _)).congr ?_
    rw [settled_exact, and_comm]
    refine and_congr_right fun _ => ?_
    simp only [Node.mem_children, forall_exists_index, and_imp, Node.slots]
    exact ⟨fun all child s slot inside => all s slot child inside, fun all s slot child => all child s slot⟩

def Objects (d : Desugarer) (n : Node) (e : RewriteError) : Prop :=
  (∃ rule, d.findMatch? n = .ok (some rule) ∧ e = .residual rule.name n.render) ∨
    ∃ fault, d.findMatch? n = .error fault ∧ e = .pattern fault

theorem residue_objects {e : RewriteError} (found : d.residue? n = some e) : d.Objects n e := by
  unfold residue? at found
  split at found
  next fault failed => exact .inr ⟨fault, failed, (Option.some.inj found).symm⟩
  next => cases found
  next rule matched => exact .inl ⟨rule, matched, (Option.some.inj found).symm⟩

-- A check succeeds exactly where a pass applies no rule, from whatever names were issued; then the tree is
-- given back slot for slot and no name is drawn. A check that fails does so at the first node on the way down
-- that a rule matches, or over which a matcher is in error.
theorem verify_certifies {r : Registry} (d : Desugarer) {tree : Node} (typed : tree.WellTyped r) :
    (∀ names, d.verify tree = .ok () ↔
      ∃ found s, (d.pass tree).run ⟨names, 0⟩ = (.ok found, s) ∧ s.applied = 0) ∧
    (d.verify tree = .ok () → ∀ names, (d.pass tree).run ⟨names, 0⟩ = (.ok (.ofNode tree), ⟨names, 0⟩) ∧
      (d.rewrite tree).run names = (.ok tree, names)) ∧
    ∀ e, d.verify tree = .error e → ∃ before n after, tree.visited = before ++ n :: after ∧
      (∀ m ∈ before, d.findMatch? m = .ok none) ∧ d.Objects n e := by
  have tells := pass_tells d tree typed
  refine ⟨fun names => ?_, fun verified names => ?_, fun e failed => ?_⟩
  · rw [verify_ok]
    constructor
    · intro settled
      exact ⟨_, _, tells.still settled ⟨names, 0⟩, rfl⟩
    · intro ran
      obtain ⟨found, s, ran, none⟩ := ran
      exact tells.only ⟨names, 0⟩ found (by rw [ran]) (by rw [ran]; exact none)
  · have ran := tells.still (verify_ok.mp verified) ⟨names, 0⟩
    refine ⟨ran, ?_⟩
    rw [rewrite_run, ran]
    rfl
  · rw [verify_visited] at failed
    cases found : tree.visited.findSome? d.residue? with
    | none =>
      rw [found] at failed
      cases failed
    | some e' =>
      rw [found] at failed
      cases failed
      obtain ⟨before, n, after, split, residue, clear⟩ := List.findSome?_eq_some_iff.mp found
      exact ⟨before, n, after, split, fun m member => residue_none.mp (clear m member), residue_objects residue⟩

def dropping (kind : String) : Rule := ⟨"drop", .ofKind kind, fun _ _ => return .delete⟩

-- The polling loop has no `pass` in it; the first `break` in it is in the `else` of the inner loop.
theorem pollingLoop_certified :
    (∀ names, (((empty coreRegistry).push (dropping "Pass")).rewrite pollingLoop).run names =
      (.ok pollingLoop, names)) ∧
    ∃ before n after, pollingLoop.visited = before ++ n :: after ∧
      (∀ m ∈ before, ((empty coreRegistry).push (dropping "Break")).findMatch? m = .ok none) ∧
      ((empty coreRegistry).push (dropping "Break")).Objects n (.residual "drop" "Break()") := by
  refine ⟨fun names => ?_, ?_⟩
  · exact ((verify_certifies ((empty coreRegistry).push (dropping "Pass")) pollingLoop_typed).2.1
      (by decide +kernel) names).2
  · exact (verify_certifies ((empty coreRegistry).push (dropping "Break")) pollingLoop_typed).2.2 _
      (by decide +kernel)

end Desugarer

end TreeLowering
