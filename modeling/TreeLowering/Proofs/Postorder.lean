import TreeLowering.Proofs.Visited

namespace TreeLowering

mutual
def Node.postorder : Node → List Node
  | .mk schema slots => Slot.postorderAll slots ++ [.mk schema slots]
termination_by structural n => n

def Slot.postorderAll : List Slot → List Node
  | [] => []
  | slot :: rest => slot.postorder ++ Slot.postorderAll rest
termination_by structural ss => ss

def Slot.postorder : Slot → List Node
  | .value v => v.postorder
  | _ => []
termination_by structural s => s

def Value.postorder : Value → List Node
  | .node n => n.postorder
  | .list items => Value.postorderAll items
  | .tuple items => Value.postorderAll items
  | _ => []
termination_by structural v => v

def Value.postorderAll : List Value → List Node
  | [] => []
  | v :: rest => v.postorderElement ++ Value.postorderAll rest
termination_by structural vs => vs

-- A sequence inside of a sequence is not entered.
def Value.postorderElement : Value → List Node
  | .node n => n.postorder
  | _ => []
termination_by structural v => v
end

def Node.beneath (n : Node) : List Node := Slot.postorderAll n.slots

theorem Node.postorder_beneath (n : Node) : n.postorder = n.beneath ++ [n] := by
  cases n
  rfl

theorem Value.postorderAll_children (items : List Value) :
    Value.postorderAll items = (items.filterMap Value.node?).flatMap Node.postorder := by
  induction items with
  | nil => rfl
  | cons v rest ih =>
    rw [Value.postorderAll, ih]
    cases v <;> rfl

theorem Slot.postorder_children (s : Slot) : s.postorder = s.children.flatMap Node.postorder := by
  cases s with
  | value v =>
    cases v with
    | node n => exact (List.append_nil _).symm
    | list items => exact Value.postorderAll_children items
    | tuple items => exact Value.postorderAll_children items
    | _ => rfl
  | _ => rfl

theorem Node.beneath_children (n : Node) : n.beneath = n.children.flatMap Node.postorder := by
  rw [Node.beneath, Node.children]
  induction n.slots with
  | nil => rfl
  | cons s rest ih =>
    rw [Slot.postorderAll, ih, Slot.postorder_children, List.flatMap_cons, List.flatMap_append]

theorem Node.postorder_perm (n : Node) : n.postorder.Perm n.visited := by
  induction n using Node.children_induct with
  | step n ih =>
    have children : ∀ nodes : List Node, (∀ child ∈ nodes, child ∈ n.children) →
        (nodes.flatMap Node.postorder).Perm (nodes.flatMap Node.visited) := by
      intro nodes inside
      induction nodes with
      | nil => exact .nil
      | cons child rest others =>
        rw [List.forall_mem_cons] at inside
        rw [List.flatMap_cons, List.flatMap_cons]
        exact (ih child inside.1).append (others inside.2)
    rw [Node.postorder_beneath, Node.beneath_children, Node.visited_children]
    exact List.perm_append_singleton _ _ |>.trans ((children n.children fun _ => id).cons n)

end TreeLowering
