import TreeLowering.Proofs.Postorder
import TreeLowering.Proofs.RuleResults
import TreeLowering.Proofs.Dispatch
import TreeLowering.Proofs.Issued

namespace TreeLowering

namespace Node

def hasElse (n : Node) : Bool := !(n.itemsAt "orelse").isEmpty

def hints (n : Node) : List String := "__iter" :: "__item" :: if n.hasElse then ["__nobreak"] else []

theorem hints_known {n : Node} {hint : String} (member : hint ∈ n.hints) :
    hint ∈ ["__iter", "__item", "__nobreak"] := by
  unfold hints at member
  simp only [List.mem_cons] at member ⊢
  refine member.imp_right (Or.imp_right fun flag => ?_)
  split at flag
  · exact .inl (List.mem_singleton.mp flag)
  · cases flag

end Node

namespace Reference

-- The loops among nodes, where the choice of rules has the one for them.
def loops (rules : List String) (nodes : List Node) : List Node :=
  nodes.filter fun n => n.kind == "For" && rules.contains Rule.forLoopName

def uses (hint : String) (loops : List Node) : Nat := (loops.flatMap Node.hints).count hint

def loopNames (s : NameSupply) (earlier : List Node) (withElse : Bool) : Rule.LoopNames where
  iterator := NameSupply.numbered "__iter" (s.issued "__iter" + earlier.length)
  item := NameSupply.numbered "__item" (s.issued "__item" + earlier.length)
  exhausted := if withElse then
    some (NameSupply.numbered "__nobreak" (s.issued "__nobreak" + earlier.countP Node.hasElse)) else none

-- What a rule has to work with.
inductive Reading where
  | loop (parts : Rule.Loop)
  | augmented (id : String) (op value : Node)
  | asserted (test : Node) (msg : Option Node)

-- A body or an `else` part that is unset reads as empty. What lacks another part is not read.
def reading? (rules : List String) (n : Node) : Option Reading :=
  if n.kind = "For" ∧ Rule.forLoopName ∈ rules then do
    return .loop ⟨← n.nodeAt? "target", ← n.nodeAt? "iter", n.itemsAt "body", n.itemsAt "orelse"⟩
  else if n.kind = "AugAssign" ∧ Rule.augAssignName ∈ rules then do
    let target ← n.nodeAt? "target"
    if target.kind = "Name" then
      return .augmented (← target.textAt? "id") (← n.nodeAt? "op") (← n.nodeAt? "value")
    else none
  else if n.kind = "Assert" ∧ Rule.assertName ∈ rules then do
    return .asserted (← n.nodeAt? "test") (n.nodeAt? "msg")
  else none

section Reading

variable {rules : List String} {n target iter op value test : Node} {id : String}

theorem reading_loop (kind : n.kind = "For") (rule : Rule.forLoopName ∈ rules)
    (targeted : n.nodeAt? "target" = some target) (iterated : n.nodeAt? "iter" = some iter) :
    reading? rules n = some (.loop ⟨target, iter, n.itemsAt "body", n.itemsAt "orelse"⟩) := by
  simp [reading?, kind, rule, targeted, iterated]

theorem reading_augmented (kind : n.kind = "AugAssign") (rule : Rule.augAssignName ∈ rules)
    (targeted : n.nodeAt? "target" = some target) (isName : target.kind = "Name")
    (named : target.textAt? "id" = some id) (operated : n.nodeAt? "op" = some op)
    (valued : n.nodeAt? "value" = some value) : reading? rules n = some (.augmented id op value) := by
  simp [reading?, kind, rule, targeted, isName, named, operated, valued]

theorem reading_asserted (kind : n.kind = "Assert") (rule : Rule.assertName ∈ rules)
    (tested : n.nodeAt? "test" = some test) :
    reading? rules n = some (.asserted test (n.nodeAt? "msg")) := by
  simp [reading?, kind, rule, tested]

theorem reading_none (unmatched : (Rule.for? n).filter (fun rule => rules.contains rule.name) = none) :
    reading? rules n = none := by
  have absent : ∀ rule, Rule.for? n = some rule → rule.name ∉ rules := by
    intro rule found named
    exact Option.filter_eq_none_iff.mp unmatched rule found (List.contains_iff_mem.mpr named)
  unfold reading?
  split
  next both => exact absurd both.2 (absent .forLoop (by simp [Rule.for?, both.1]))
  split
  next both =>
    cases target : n.nodeAt? "target" with
    | none => rfl
    | some t =>
      refine if_neg fun isName => ?_
      exact absent .augAssign (by simp [Rule.for?, both.1, target, isName]) both.2
  split
  next both => exact absurd both.2 (absent .assertion (by simp [Rule.for?, both.1]))
  · rfl

-- What is read says what the node has.
theorem reading_cases {reading : Reading} (read : reading? rules n = some reading) :
    (n.kind = "For" ∧ Rule.forLoopName ∈ rules ∧ ∃ target iter, n.nodeAt? "target" = some target ∧
      n.nodeAt? "iter" = some iter ∧ reading = .loop ⟨target, iter, n.itemsAt "body", n.itemsAt "orelse"⟩) ∨
    (n.kind = "AugAssign" ∧ Rule.augAssignName ∈ rules ∧ ∃ target id op value, n.nodeAt? "target" = some target ∧
      target.kind = "Name" ∧ target.textAt? "id" = some id ∧ n.nodeAt? "op" = some op ∧
      n.nodeAt? "value" = some value ∧ reading = .augmented id op value) ∨
    (n.kind = "Assert" ∧ Rule.assertName ∈ rules ∧ ∃ test, n.nodeAt? "test" = some test ∧
      reading = .asserted test (n.nodeAt? "msg")) := by
  unfold reading? at read
  split at read
  next both =>
    obtain ⟨target, targeted, read⟩ := Option.bind_eq_some_iff.mp read
    obtain ⟨iter, iterated, read⟩ := Option.bind_eq_some_iff.mp read
    cases read
    exact .inl ⟨both.1, both.2, target, iter, targeted, iterated, rfl⟩
  split at read
  next both =>
    obtain ⟨target, targeted, read⟩ := Option.bind_eq_some_iff.mp read
    split at read
    next isName =>
      obtain ⟨id, named, read⟩ := Option.bind_eq_some_iff.mp read
      obtain ⟨op, operated, read⟩ := Option.bind_eq_some_iff.mp read
      obtain ⟨value, valued, read⟩ := Option.bind_eq_some_iff.mp read
      cases read
      exact .inr (.inl ⟨both.1, both.2, target, id, op, value, targeted, isName, named, operated, valued, rfl⟩)
    next => cases read
  split at read
  next both =>
    obtain ⟨test, tested, read⟩ := Option.bind_eq_some_iff.mp read
    cases read
    exact .inr (.inr ⟨both.1, both.2, test, tested, rfl⟩)
  next => cases read

theorem reading_other (other : n.kind ∉ Core.replaced) : reading? rules n = none := by
  simp only [Core.replaced, List.mem_cons, List.not_mem_nil, or_false, not_or] at other
  simp [reading?, other]

end Reading

variable (rules : List String) (s : NameSupply)

-- What comes in the place of a node whose children are in place, behind other loops.
def place (earlier : List Node) (n : Node) : Replacement :=
  match reading? rules n with
  | some (.loop parts) => .ofNodes (Lowered.loop (loopNames s earlier (!parts.orelse.isEmpty)) parts)
  | some (.augmented id op value) => .ofNode (Lowered.spelledOut id op value)
  | some (.asserted test msg) => .ofNode (Lowered.raiseUnless test msg)
  | none => .ofNode n

mutual
-- A node around its new children. Each part comes behind the loops in the parts before it.
def node (earlier : List Node) : Node → Node
  | .mk schema fields => .mk schema (slots earlier fields)
termination_by structural n => n

def slots (earlier : List Node) : List Slot → List Slot
  | [] => []
  | first :: rest => slot earlier first :: slots (earlier ++ loops rules first.postorder) rest
termination_by structural ss => ss

def slot (earlier : List Node) : Slot → Slot
  | .value v => .value (value earlier v)
  | s => s
termination_by structural s => s

def value (earlier : List Node) : Value → Value
  | .node n => .node (node earlier n)
  | .list vs => .list (items earlier vs)
  | .tuple vs => .tuple (items earlier vs)
  | v => v
termination_by structural v => v

def items (earlier : List Node) : List Value → List Value
  | [] => []
  | first :: rest => element earlier first ++ items (earlier ++ loops rules first.postorderElement) rest
termination_by structural vs => vs

def element (earlier : List Node) : Value → List Value
  | .node n => (place rules s (earlier ++ loops rules n.beneath) (node earlier n)).elements
  | v => [v]
termination_by structural v => v
end

def lowered (earlier : List Node) (n : Node) : Replacement :=
  place rules s (earlier ++ loops rules n.beneath) (node rules s earlier n)

section Counting

variable {rules : List String} {hint : String} {some_loops more : List Node}

theorem loops_nil : loops rules [] = [] := rfl

theorem loops_one (n : Node) :
    loops rules [n] = if n.kind = "For" ∧ Rule.forLoopName ∈ rules then [n] else [] := by
  unfold loops
  rw [List.filter_singleton]
  simp

theorem loops_all (rule : Rule.forLoopName ∈ rules) (nodes : List Node) :
    loops rules nodes = nodes.filter fun n => n.kind == "For" :=
  List.filter_congr fun n _ => by rw [List.contains_iff_mem.mpr rule, Bool.and_true]

theorem loops_append (first second : List Node) :
    loops rules (first ++ second) = loops rules first ++ loops rules second := List.filter_append ..

theorem uses_append : uses hint (some_loops ++ more) = uses hint some_loops + uses hint more := by
  unfold uses
  rw [List.flatMap_append, List.count_append]

theorem uses_each (ns : List Node) : uses "__iter" ns = ns.length ∧ uses "__item" ns = ns.length ∧
    uses "__nobreak" ns = ns.countP Node.hasElse ∧
    ∀ hint, hint ∉ ["__iter", "__item", "__nobreak"] → uses hint ns = 0 := by
  unfold uses
  induction ns with
  | nil => exact ⟨rfl, rfl, rfl, fun _ _ => rfl⟩
  | cons n rest ih =>
    obtain ⟨iterators, items, flags, others⟩ := ih
    simp only [List.flatMap_cons, List.count_append, List.length_cons, List.countP_cons, iterators, items, flags]
    refine ⟨?_, ?_, ?_, fun hint other => ?_⟩
    · cases withElse : n.hasElse <;> simp [Node.hints, withElse, Nat.add_comm]
    · cases withElse : n.hasElse <;> simp [Node.hints, withElse, Nat.add_comm]
    · cases withElse : n.hasElse <;> simp [Node.hints, withElse, Nat.add_comm]
    · rw [others hint other, List.count_eq_zero.mpr (mt Node.hints_known other)]

theorem uses_one (n : Node) : uses hint [n] = n.hints.count hint := by simp [uses]

def AsMany (first second : List Node) : Prop := ∀ hint, uses hint first = uses hint second

theorem AsMany.refl (nodes : List Node) : AsMany nodes nodes := fun _ => rfl

theorem AsMany.append {first second later others : List Node} (same : AsMany first second) (rest : AsMany later others) :
    AsMany (first ++ later) (second ++ others) := by
  intro hint
  rw [uses_append, uses_append, same, rest]

theorem AsMany.one {n m : Node} (flagged : n.hasElse = m.hasElse) : AsMany [n] [m] := by
  intro hint
  rw [uses_one, uses_one, Node.hints, Node.hints, flagged]

theorem loopNames_position {s t : NameSupply} {earlier before : List Node} {withElse : Bool}
    (position : ∀ hint, s.issued hint + uses hint earlier = t.issued hint + uses hint before) :
    loopNames s earlier withElse = loopNames t before withElse := by
  obtain ⟨iterators, items, flags, -⟩ := uses_each earlier
  obtain ⟨iterators', items', flags', -⟩ := uses_each before
  have iterator := position "__iter"
  have item := position "__item"
  have flag := position "__nobreak"
  rw [iterators, iterators'] at iterator
  rw [items, items'] at item
  rw [flags, flags'] at flag
  unfold loopNames
  rw [iterator, item, flag]

theorem loopNames_same {s : NameSupply} {earlier before : List Node} (same : AsMany earlier before) (withElse : Bool) :
    loopNames s earlier withElse = loopNames s before withElse := by
  refine loopNames_position fun hint => ?_
  rw [same hint]

end Counting

section Fields

variable {rules : List String} {s : NameSupply} {earlier : List Node} {n : Node} {name : String}

theorem place_unread (unread : reading? rules n = none) : place rules s earlier n = .ofNode n := by
  unfold place
  rw [unread]

theorem place_nonempty : (place rules s earlier n).elements ≠ [] := by
  unfold place
  split
  · simp [Replacement.ofNodes, Replacement.elements, Lowered.loop]
  · exact List.cons_ne_nil _ _
  · exact List.cons_ne_nil _ _
  · exact List.cons_ne_nil _ _

theorem items_other {v : Value} (other : ∀ n, v ≠ .node n) (rest : List Value) :
    items rules s earlier (v :: rest) = v :: items rules s earlier rest := by
  cases v with
  | node n => exact absurd rfl (other n)
  | _ => simp [items, element, Value.postorderElement, loops_nil]

theorem items_nil {vs : List Value} : items rules s earlier vs = [] ↔ vs = [] := by
  cases vs with
  | nil => exact ⟨fun _ => rfl, fun _ => rfl⟩
  | cons v rest =>
    refine iff_of_false (fun empty => ?_) (List.cons_ne_nil _ _)
    rw [items, List.append_eq_nil_iff] at empty
    cases v with
    | node n => exact place_nonempty empty.1
    | _ => cases empty.1

theorem slots_index {ss : List Slot} (index : Nat) : (slots rules s earlier ss)[index]? =
    ss[index]?.map (slot rules s (earlier ++ loops rules (Slot.postorderAll (ss.take index)))) := by
  induction ss generalizing earlier index with
  | nil => rfl
  | cons first rest ih =>
    cases index with
    | zero => simp [slots, Slot.postorderAll, loops]
    | succ index =>
      rw [slots, List.getElem?_cons_succ, List.getElem?_cons_succ, ih, List.take_succ_cons, Slot.postorderAll,
        loops_append, List.append_assoc]

theorem node_slots : node rules s earlier n = .mk n.schema (slots rules s earlier n.slots) := by
  cases n
  rfl

theorem node_schema : (node rules s earlier n).schema = n.schema := by
  rw [node_slots]
  rfl

theorem node_kind : (node rules s earlier n).kind = n.kind := by
  rw [Node.kind, node_schema, Node.kind]

theorem node_slot (rules : List String) (s : NameSupply) (earlier : List Node) (n : Node) (name : String) :
    ∃ before, (node rules s earlier n).slot? name = (n.slot? name).map (slot rules s before) := by
  unfold Node.slot?
  rw [node_schema]
  cases found : n.schema.fieldIndex? name with
  | none => exact ⟨earlier, rfl⟩
  | some index =>
    refine ⟨earlier ++ loops rules (Slot.postorderAll (n.slots.take index)), ?_⟩
    rw [node_slots]
    exact slots_index index

theorem node_itemsAt (name : String) :
    (node rules s earlier n).itemsAt name = [] ↔ n.itemsAt name = [] := by
  obtain ⟨before, same⟩ := node_slot rules s earlier n name
  unfold Node.itemsAt Node.get?
  rw [same]
  cases n.slot? name with
  | none => exact Iff.rfl
  | some held =>
    cases held with
    | value v =>
      cases v with
      | list vs => exact items_nil
      | tuple vs => exact items_nil
      | _ => exact Iff.rfl
    | _ => exact Iff.rfl

theorem node_hasElse : (node rules s earlier n).hasElse = n.hasElse := by
  unfold Node.hasElse
  rw [Bool.eq_iff_iff]
  simp [node_itemsAt]

theorem node_nodeAt (rules : List String) (s : NameSupply) (earlier : List Node) (n : Node) (name : String) :
    ∃ before, (node rules s earlier n).nodeAt? name = (n.nodeAt? name).map (node rules s before) := by
  obtain ⟨before, same⟩ := node_slot rules s earlier n name
  refine ⟨before, ?_⟩
  unfold Node.nodeAt?
  rw [same]
  cases n.slot? name with
  | none => rfl
  | some held =>
    cases held with
    | value v => cases v <;> rfl
    | _ => rfl

theorem node_textAt (name : String) : (node rules s earlier n).textAt? name = n.textAt? name := by
  obtain ⟨before, same⟩ := node_slot rules s earlier n name
  unfold Node.textAt? Node.get?
  rw [same]
  cases n.slot? name with
  | none => rfl
  | some held =>
    cases held with
    | value v => cases v <;> rfl
    | _ => rfl

end Fields

end Reference

end TreeLowering
