import TreeLowering.Rewrite.Names
import TreeLowering.Text.Identifier

namespace TreeLowering.NameSupply

def numbered (hint : String) (n : Nat) : String := hint ++ "_" ++ String.ofList (Nat.toDigits 10 n)

-- The names that are issued on the way from one supply to another, in order.
inductive Issues : NameSupply → List String → NameSupply → Prop where
  | nil {s : NameSupply} : Issues s [] s
  | fresh {s t : NameSupply} {names : List String} (hint : String) (rest : Issues (s.fresh hint).2 names t) :
      Issues s ((s.fresh hint).1 :: names) t

variable {s t u : NameSupply} {names : List String}

theorem fresh_numbered (s : NameSupply) (hint : String) : (s.fresh hint).1 = numbered hint (s.issued hint) := rfl

theorem fresh_valid {hint : String} (valid : Text.isIdentifier hint = true) (s : NameSupply) :
    Text.isIdentifier (s.fresh hint).1 = true := by
  have digits : ∀ c ∈ Nat.toDigits 10 (s.issued hint), Text.continuesIdentifier c = true := by
    intro c member
    have digit := Nat.isDigit_of_mem_toDigits (by omega) (by omega) member
    simp [Text.continuesIdentifier, Char.isAlphanum, digit]
  unfold Text.isIdentifier at valid ⊢
  simp only [NameSupply.fresh, String.toList_append, String.toList_ofList]
  cases chars : hint.toList with
  | nil =>
    rw [chars] at valid
    cases valid
  | cons c cs =>
    rw [chars] at valid
    simp only [Bool.and_eq_true, List.all_eq_true] at valid
    simp only [List.cons_append, List.append_assoc, Bool.and_eq_true, List.all_eq_true, List.mem_append]
    refine ⟨valid.1, fun d member => ?_⟩
    rcases member with old | mark | digit
    · exact valid.2 d old
    · have underscore : d = '_' := by simpa using mark
      rw [underscore]
      rfl
    · exact digits d digit

theorem issued_initial (hint : String) : initial.issued hint = 0 := rfl

theorem issued_fresh (s : NameSupply) (hint other : String) :
    (s.fresh hint).2.issued other = s.issued other + [hint].count other := by
  change (Keyed.lookup? other (Keyed.insert hint (s.issued hint + 1) s.counters)).getD 0 = _
  rw [Keyed.lookup?_insert, List.count_singleton]
  by_cases same : hint = other
  · subst same
    simp
  · simp [same, issued]

theorem Issues.append {more : List String} (first : s.Issues names t) (rest : t.Issues more u) :
    s.Issues (names ++ more) u := by
  induction first with
  | nil => exact rest
  | fresh hint _ ih => exact .fresh hint (ih rest)

theorem issues_one (s : NameSupply) (hint : String) : s.Issues [(s.fresh hint).1] (s.fresh hint).2 :=
  .fresh hint .nil

theorem Issues.grows (issues : s.Issues names t) (hint : String) : s.issued hint ≤ t.issued hint := by
  induction issues with
  | nil => exact Nat.le_refl _
  | fresh other _ ih =>
    rw [issued_fresh] at ih
    omega

theorem issues_exact (issues : s.Issues names t) {name : String} : name ∈ names ↔
    ∃ hint n, s.issued hint ≤ n ∧ n < t.issued hint ∧ name = numbered hint n := by
  induction issues with
  | nil =>
    refine iff_of_false List.not_mem_nil fun found => ?_
    obtain ⟨hint, n, from_s, below, -⟩ := found
    omega
  | @fresh s t names hint rest ih =>
    have grown := rest.grows hint
    rw [issued_fresh, List.count_singleton_self] at grown
    rw [List.mem_cons, ih]
    constructor
    · intro found
      rcases found with rfl | ⟨other, n, later, below, rfl⟩
      · exact ⟨hint, s.issued hint, Nat.le_refl _, grown, fresh_numbered s hint⟩
      · rw [issued_fresh] at later
        exact ⟨other, n, by omega, below, rfl⟩
    · intro found
      obtain ⟨other, n, from_s, below, rfl⟩ := found
      by_cases first : other = hint ∧ n = s.issued hint
      · obtain ⟨rfl, rfl⟩ := first
        exact .inl rfl
      · refine .inr ⟨other, n, ?_, below, rfl⟩
        rw [issued_fresh, List.count_singleton]
        split
        next same =>
          rw [beq_iff_eq] at same
          subst same
          have later : n ≠ s.issued hint := fun same => first ⟨rfl, same⟩
          omega
        next => omega

end TreeLowering.NameSupply
