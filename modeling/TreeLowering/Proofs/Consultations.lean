import TreeLowering.Proofs.Pipeline
import TreeLowering.Proofs.Recorded

namespace TreeLowering

theorem Node.count_visited (n : Node) : n.count = n.visited.length := by
  have counted : ∀ (nodes : List Node) (k : Nat), nodes.foldl (fun k _ => k + 1) k = k + nodes.length := by
    intro nodes
    induction nodes with
    | nil => simp
    | cons _ rest ih =>
      intro k
      simp only [List.foldl_cons, ih, List.length_cons]
      omega
  rw [count, survey_fold (fun k _ => k + 1), counted, Nat.zero_add]

namespace Desugarer

variable (d : Desugarer)

def finds (n : Node) : Bool :=
  match d.findMatch? n with
  | .ok (some _) => true
  | _ => false

-- A pass that records each node about which it asks, just before it does.
def recordedPass (root : Node) : Walk (PassState × List Leaving) RewriteError Replacement :=
  root.transform (recorded fun _ => return .descend d.applyMatch)

-- The nodes to be settled were asked about one after the other, and as many rules were applied as were found.
structure Consulted (nodes : List Node) (s : PassState) (asked : List Leaving) (t : PassState) : Prop where
  order : asked.map Leaving.entered = nodes
  applied : t.applied = s.applied + asked.countP fun l => d.finds l.settled

variable {d}

theorem applyMatch_applied {n : Node} {s t : PassState} {r : Replacement}
    (ran : (d.applyMatch n).run s = (.ok r, t)) :
    t.applied = s.applied + if d.finds n then 1 else 0 := by
  unfold finds
  cases found : d.findMatch? n with
  | error e =>
    have stopped : (d.applyMatch n).run s = (.error (.pattern e), s) := by
      simp [applyMatch, found, ExceptT.run]
    rw [stopped] at ran
    cases ran
  | ok choice =>
    cases choice with
    | none =>
      rw [applyMatch_none found] at ran
      cases ran
      simp
    | some rule =>
      rw [applyMatch_some found] at ran
      obtain ⟨-, rfl⟩ := Prod.mk.inj ran
      simp

theorem pass_accounts : Accounts (fun _ => return .descend d.applyMatch) d.Consulted where
  nothing s := ⟨rfl, by simp⟩
  append first second := by
    refine ⟨by simp [first.order, second.order], ?_⟩
    have := first.applied
    have := second.applied
    rw [List.countP_append]
    omega
  replaced entered := by cases entered
  left entered below ran := by
    cases entered
    refine ⟨by simp [below.order, Node.postorder_beneath], ?_⟩
    have := below.applied
    have := applyMatch_applied ran
    simp only [List.countP_append, List.countP_singleton]
    omega

theorem pass_consults {root : Node} (sized : ∀ m ∈ root.visited, m.Sized) {s t : PassState} {r : Replacement}
    (passed : (d.pass root).run s = (.ok r, t)) :
    ∃ asked : List Leaving, (d.recordedPass root).run (s, []) = (.ok r, (t, asked)) ∧
      asked.map Leaving.entered = root.postorder ∧ asked.length = root.count ∧
      (∀ l ∈ asked, ∃ before after,
        (l.entered.transformChildren d.pass).run before = (.ok l.settled, after)) ∧
      t.applied = s.applied + asked.countP (fun l => d.finds l.settled) ∧
      t.applied ≤ s.applied + root.count := by
  obtain ⟨asked, ran, stems, consulted⟩ := Node.transform_records pass_accounts sized s []
  have plain : (root.transform fun _ => return .descend d.applyMatch).run s = (.ok r, t) := passed
  rw [plain] at ran
  obtain ⟨order, applied⟩ := consulted r t plain
  have count : asked.length = root.count := by
    rw [Node.count_visited, ← root.postorder_perm.length_eq, ← order, List.length_map]
  refine ⟨asked, ran, order, count, fun l inside => (stems l inside).settles, applied, ?_⟩
  have few := asked.countP_le_length (p := fun l => d.finds l.settled)
  omega

-- A rule that puts two nodes of a kind in the place of one, both of which it matches.
def doubling (kind : String) : Rule := ⟨"double", .ofKind kind, fun _ n => return .ofNodes [n, n]⟩

def breakDoubler : Desugarer := (empty ⟨0, []⟩).push (doubling "Break")

-- The one `break` of the polling loop becomes two, and neither of them is asked about.
theorem pollingLoop_consulted :
    ∃ r asked, (breakDoubler.pass pollingLoop).run ⟨.initial, 0⟩ = (.ok r, ⟨.initial, 1⟩) ∧
      (breakDoubler.recordedPass pollingLoop).run (⟨.initial, 0⟩, []) = (.ok r, (⟨.initial, 1⟩, asked)) ∧
      asked.map Leaving.entered = pollingLoop.postorder ∧ asked.length = 11 ∧
      asked.countP (fun l => breakDoubler.finds l.settled) = 1 := by
  have sized : ∀ m ∈ pollingLoop.visited, m.Sized := fun m met =>
    (Node.visited_typed pollingLoop_typed met).sized
  have ends : ((breakDoubler.pass pollingLoop).run ⟨.initial, 0⟩).1.isOk = true ∧
      ((breakDoubler.pass pollingLoop).run ⟨.initial, 0⟩).2 = ⟨.initial, 1⟩ := by
    decide +kernel
  cases passed : (breakDoubler.pass pollingLoop).run ⟨.initial, 0⟩ with
  | mk outcome t =>
    obtain ⟨ok, same⟩ := passed ▸ ends
    cases same
    cases outcome with
    | error e => cases ok
    | ok r =>
      obtain ⟨asked, ran, order, count, -, applied, -⟩ := pass_consults sized passed
      exact ⟨r, asked, rfl, ran, order, count, by simpa using applied.symm⟩

end Desugarer

end TreeLowering
