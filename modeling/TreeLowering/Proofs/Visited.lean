import TreeLowering.Rewrite.Desugarer

namespace TreeLowering

mutual
def Node.visited : Node → List Node
  | .mk schema slots => .mk schema slots :: Slot.visitedAll slots
termination_by structural n => n

def Slot.visitedAll : List Slot → List Node
  | [] => []
  | slot :: rest => slot.visited ++ Slot.visitedAll rest
termination_by structural ss => ss

def Slot.visited : Slot → List Node
  | .value v => v.visited
  | _ => []
termination_by structural s => s

def Value.visited : Value → List Node
  | .node n => n.visited
  | .list items => Value.visitedAll items
  | .tuple items => Value.visitedAll items
  | _ => []
termination_by structural v => v

def Value.visitedAll : List Value → List Node
  | [] => []
  | v :: rest => v.visitedElement ++ Value.visitedAll rest
termination_by structural vs => vs

-- A sequence inside of a sequence is not entered.
def Value.visitedElement : Value → List Node
  | .node n => n.visited
  | _ => []
termination_by structural v => v
end

def Value.children : Value → List Node
  | .node n => [n]
  | .list items | .tuple items => items.filterMap Value.node?
  | _ => []

def Slot.children : Slot → List Node
  | .value v => v.children
  | _ => []

def Node.children (n : Node) : List Node := n.slots.flatMap Slot.children

theorem Value.visitedAll_children (items : List Value) :
    Value.visitedAll items = (items.filterMap Value.node?).flatMap Node.visited := by
  induction items with
  | nil => rfl
  | cons v rest ih =>
    rw [Value.visitedAll, ih]
    cases v <;> rfl

theorem Slot.visited_children (s : Slot) : s.visited = s.children.flatMap Node.visited := by
  cases s with
  | value v =>
    cases v with
    | node n => exact (List.append_nil _).symm
    | list items => exact Value.visitedAll_children items
    | tuple items => exact Value.visitedAll_children items
    | _ => rfl
  | _ => rfl

theorem Node.visited_children (n : Node) : n.visited = n :: n.children.flatMap Node.visited := by
  obtain ⟨schema, slots⟩ := n
  rw [Node.visited, Node.children, Node.slots]
  congr 1
  induction slots with
  | nil => rfl
  | cons s rest ih =>
    rw [Slot.visitedAll, ih, Slot.visited_children, List.flatMap_cons, List.flatMap_append]

namespace Node

theorem self_visited (n : Node) : n ∈ n.visited := by
  rw [visited_children]
  exact List.mem_cons_self ..

theorem mem_visited {n m : Node} : m ∈ n.visited ↔ m = n ∨ ∃ child ∈ n.children, m ∈ child.visited := by
  rw [visited_children, List.mem_cons, List.mem_flatMap]

theorem mem_children {n child : Node} :
    child ∈ n.children ↔ ∃ s ∈ n.slots, child ∈ s.children := List.mem_flatMap

end Node

theorem Value.mem_children {v : Value} {child : Node} : child ∈ v.children ↔
    v = .node child ∨ ∃ items, v.items? = some items ∧ .node child ∈ items := by
  have held : ∀ items : List Value, child ∈ items.filterMap Value.node? ↔ .node child ∈ items := by
    intro items
    rw [List.mem_filterMap]
    constructor
    · intro shape
      obtain ⟨v, member, isNode⟩ := shape
      cases v <;> cases isNode
      exact member
    · intro member
      exact ⟨_, member, rfl⟩
  cases v <;> simp [Value.children, Value.items?, held, eq_comm]

theorem Slot.child_smaller {s : Slot} {child : Node} (member : child ∈ s.children) :
    sizeOf child < sizeOf s := by
  cases s with
  | value v =>
    rcases Value.mem_children.mp member with rfl | ⟨items, found, inside⟩
    · simp only [Slot.value.sizeOf_spec, Value.node.sizeOf_spec]
      omega
    · have part := List.sizeOf_lt_of_mem inside
      cases v <;> cases found <;>
        simp only [Slot.value.sizeOf_spec, Value.list.sizeOf_spec, Value.tuple.sizeOf_spec,
          Value.node.sizeOf_spec] at part ⊢ <;> omega
  | _ => cases member

theorem Node.child_smaller {n child : Node} (member : child ∈ n.children) : sizeOf child < sizeOf n := by
  obtain ⟨s, slot, inside⟩ := mem_children.mp member
  obtain ⟨schema, slots⟩ := n
  have part := Slot.child_smaller inside
  have whole := List.sizeOf_lt_of_mem slot
  simp only [Node.slots] at whole
  simp only [Node.mk.sizeOf_spec]
  omega

-- What follows for a node from its children holds of every tree.
theorem Node.children_induct {motive : Node → Prop}
    (step : ∀ n, (∀ child ∈ n.children, motive child) → motive n) (n : Node) : motive n :=
  step n fun child member =>
    have := child_smaller member
    children_induct step child
termination_by sizeOf n

theorem Node.visited_trans {n m k : Node} : m ∈ n.visited → k ∈ m.visited → k ∈ n.visited := by
  induction n using Node.children_induct with
  | step n ih =>
    intro met further
    rcases mem_visited.mp met with rfl | ⟨child, inside, below⟩
    · exact further
    · exact mem_visited.mpr (.inr ⟨child, inside, ih child inside below further⟩)

section Survey

variable {σ : Type} (note : σ → Node → σ)

mutual
theorem Node.survey_fold (n : Node) (depth : Nat) (s : σ) :
    n.survey (fun _ m s => (note s m, true)) depth s = n.visited.foldl note s := by
  cases n with
  | mk schema slots => exact Slot.survey_fold slots (depth + 1) _
termination_by structural n

theorem Slot.survey_fold (slots : List Slot) (depth : Nat) (s : σ) :
    Slot.surveyAll (fun _ m s => (note s m, true)) depth slots s = (Slot.visitedAll slots).foldl note s := by
  cases slots with
  | nil => rfl
  | cons held rest =>
    rw [Slot.visitedAll, List.foldl_append]
    cases held with
    | value v =>
      change Slot.surveyAll _ depth rest (v.survey _ depth s) = _
      rw [Value.survey_fold v, Slot.survey_fold rest]
      rfl
    | _ => exact Slot.survey_fold rest depth s
termination_by structural slots

theorem Value.survey_fold (v : Value) (depth : Nat) (s : σ) :
    v.survey (fun _ m s => (note s m, true)) depth s = v.visited.foldl note s := by
  cases v with
  | node n => exact Node.survey_fold n depth s
  | list items => exact Value.surveyAll_fold items depth s
  | tuple items => exact Value.surveyAll_fold items depth s
  | _ => rfl
termination_by structural v

theorem Value.surveyAll_fold (items : List Value) (depth : Nat) (s : σ) :
    Value.surveyAll (fun _ m s => (note s m, true)) depth items s = (Value.visitedAll items).foldl note s := by
  cases items with
  | nil => rfl
  | cons v rest =>
    rw [Value.visitedAll, List.foldl_append]
    cases v with
    | node n =>
      change Value.surveyAll _ depth rest (n.survey _ depth s) = _
      rw [Node.survey_fold n, Value.surveyAll_fold rest]
      rfl
    | _ => exact Value.surveyAll_fold rest depth s
termination_by structural items
end

end Survey

section Search

variable {ε : Type} (check : Node → Option ε)

-- A survey that stops at the first node at which something is found.
def seek (_ : Nat) (n : Node) (found : Option ε) : Option ε × Bool :=
  match found with
  | some e => (some e, false)
  | none => (check n, (check n).isNone)

mutual
theorem Node.survey_seek (n : Node) (depth : Nat) (found : Option ε) :
    n.survey (seek check) depth found = found.or (n.visited.findSome? check) := by
  cases n with
  | mk schema slots =>
    rw [Node.survey, Node.visited, List.findSome?_cons]
    cases found with
    | some e => rfl
    | none =>
      cases here : check (.mk schema slots) with
      | some e => simp [seek, here]
      | none => simp [seek, here, Slot.survey_seek slots]
termination_by structural n

theorem Slot.survey_seek (slots : List Slot) (depth : Nat) (found : Option ε) :
    Slot.surveyAll (seek check) depth slots found = found.or ((Slot.visitedAll slots).findSome? check) := by
  cases slots with
  | nil => cases found <;> rfl
  | cons slot rest =>
    rw [Slot.visitedAll, List.findSome?_append]
    cases slot with
    | value v =>
      change Slot.surveyAll (seek check) depth rest (v.survey (seek check) depth found) = _
      rw [Value.survey_seek v, Slot.survey_seek rest, Option.or_assoc]
      rfl
    | _ => exact Slot.survey_seek rest depth found
termination_by structural slots

theorem Value.survey_seek (v : Value) (depth : Nat) (found : Option ε) :
    v.survey (seek check) depth found = found.or (v.visited.findSome? check) := by
  cases v with
  | node n => exact Node.survey_seek n depth found
  | list items => exact Value.surveyAll_seek items depth found
  | tuple items => exact Value.surveyAll_seek items depth found
  | _ => cases found <;> rfl
termination_by structural v

theorem Value.surveyAll_seek (items : List Value) (depth : Nat) (found : Option ε) :
    Value.surveyAll (seek check) depth items found =
      found.or ((Value.visitedAll items).findSome? check) := by
  cases items with
  | nil => cases found <;> rfl
  | cons v rest =>
    rw [Value.visitedAll, List.findSome?_append]
    cases v with
    | node n =>
      change Value.surveyAll (seek check) depth rest (n.survey (seek check) depth found) = _
      rw [Node.survey_seek n, Value.surveyAll_seek rest, Option.or_assoc]
      rfl
    | _ => exact Value.surveyAll_seek rest depth found
termination_by structural items
end

end Search

namespace Desugarer

variable {d : Desugarer} {n : Node}

-- Nothing is left to be rewritten.
def Settled (d : Desugarer) (n : Node) : Prop := ∀ m ∈ n.visited, d.findMatch? m = .ok none

theorem verify_visited : d.verify n =
    match n.visited.findSome? d.residue? with
    | some e => .error e
    | none => .ok () := by
  have searched : ∀ look, look = seek d.residue? →
      n.survey look 0 none = n.visited.findSome? d.residue? := by
    intro look same
    subst same
    rw [Node.survey_seek, Option.none_or]
  exact congrArg (fun found : Option RewriteError => (match found with
    | some e => .error e
    | none => .ok () : Except RewriteError Unit)) (searched _ (by funext depth n found; cases found <;> rfl))

theorem residue_none : d.residue? n = none ↔ d.findMatch? n = .ok none := by
  unfold residue?
  split <;> simp_all

theorem verify_ok : d.verify n = .ok () ↔ d.Settled n := by
  rw [verify_visited]
  cases found : n.visited.findSome? d.residue? with
  | some e =>
    obtain ⟨m, member, residue⟩ := List.exists_of_findSome?_eq_some found
    simp only [reduceCtorEq, false_iff]
    intro settled
    rw [residue_none.mpr (settled m member)] at residue
    cases residue
  | none =>
    rw [List.findSome?_eq_none_iff] at found
    simp only [true_iff]
    exact fun m member => residue_none.mp (found m member)

end Desugarer

end TreeLowering
