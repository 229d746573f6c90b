import TreeLowering.Proofs.Assignment
import TreeLowering.Proofs.Visited

namespace TreeLowering

mutual
def Node.WellTyped (r : Registry) : Node → Prop
  | .mk schema slots => schema ∈ r.schemas ∧ Slot.AllTyped r schema.fields slots
termination_by structural n => n

def Slot.AllTyped (r : Registry) : List Field → List Slot → Prop
  | [], [] => True
  | f :: fs, s :: ss => s.Typed r f ∧ Slot.AllTyped r fs ss
  | _, _ => False
termination_by structural _ ss => ss

-- What is unset fits any field; an explicit "no value" is for optional fields.
def Slot.Typed (r : Registry) (f : Field) : Slot → Prop
  | .unset => True
  | .explicitNone => f.cardinality = .optional
  | .value v => f.Fits v ∧ v.WellTyped r
termination_by structural s => s

def Value.WellTyped (r : Registry) : Value → Prop
  | .node n => n.WellTyped r
  | .list items => Value.AllTyped r items
  | .tuple items => Value.AllTyped r items
  | _ => True
termination_by structural v => v

def Value.AllTyped (r : Registry) : List Value → Prop
  | [] => True
  | v :: rest => v.WellTyped r ∧ Value.AllTyped r rest
termination_by structural vs => vs
end

variable {r : Registry}

theorem Value.allTyped_mem {items : List Value} :
    Value.AllTyped r items ↔ ∀ v ∈ items, v.WellTyped r := by
  induction items with
  | nil => simp [Value.AllTyped]
  | cons v rest ih => simp [Value.AllTyped, ih]

theorem Value.items_typed {v : Value} {items : List Value} (found : v.items? = some items) :
    v.WellTyped r ↔ ∀ item ∈ items, item.WellTyped r := by
  cases v <;> cases found <;> exact Value.allTyped_mem

theorem Slot.allTyped_index {fs : List Field} {ss : List Slot} :
    Slot.AllTyped r fs ss ↔
      ss.length = fs.length ∧
        ∀ (index : Nat) f (s : Slot), fs[index]? = some f → ss[index]? = some s → s.Typed r f := by
  induction fs generalizing ss with
  | nil => cases ss <;> simp [Slot.AllTyped]
  | cons f fs ih =>
    cases ss with
    | nil => simp [Slot.AllTyped]
    | cons s ss =>
      rw [Slot.AllTyped, ih]
      constructor
      · intro shape
        obtain ⟨first, sized, rest⟩ := shape
        refine ⟨by simp [sized], fun index g t field slot => ?_⟩
        cases index with
        | zero =>
          cases field
          cases slot
          exact first
        | succ index => exact rest index g t field slot
      · intro shape
        obtain ⟨sized, all⟩ := shape
        exact ⟨all 0 f s rfl rfl, by simpa using sized, fun index g t => all (index + 1) g t⟩

def Slot.node? (s : Slot) : Option Node := s.value?.bind Value.node?

namespace Node

variable {n after : Node} {name : String} {v : Value}

-- A well-typed node, field by field.
theorem wellTyped_index : n.WellTyped r ↔ n.schema ∈ r.schemas ∧ n.Sized ∧
    ∀ (index : Nat) f (s : Slot), n.schema.fields[index]? = some f → n.slots[index]? = some s → s.Typed r f := by
  cases n with
  | mk schema slots =>
    rw [WellTyped, Slot.allTyped_index]
    rfl

theorem WellTyped.sized (typed : n.WellTyped r) : n.Sized := (wellTyped_index.mp typed).2.1

theorem WellTyped.member (typed : n.WellTyped r) : n.schema ∈ r.schemas := (wellTyped_index.mp typed).1

theorem empty_typed {schema : Schema} (member : schema ∈ r.schemas) : (empty schema).WellTyped r := by
  refine wellTyped_index.mpr ⟨member, empty_sized schema, fun index f s field slot => ?_⟩
  have unset : s = .unset := List.eq_of_mem_replicate (List.mem_of_getElem? slot)
  rw [unset]
  trivial

theorem put_typed {index : Nat} {f : Field} {s : Slot} (typed : n.WellTyped r)
    (field : n.schema.fields[index]? = some f) (fits : s.Typed r f) : (n.put index s).WellTyped r := by
  obtain ⟨member, sized, slots⟩ := wellTyped_index.mp typed
  refine wellTyped_index.mpr ⟨member, put_sized sized, fun other g t isField isSlot => ?_⟩
  change (n.slots.set index s)[other]? = some t at isSlot
  by_cases same : index = other
  · subst same
    cases field.symm.trans isField
    obtain ⟨bound, rfl⟩ := List.getElem?_eq_some_iff.mp isSlot
    simpa using fits
  · rw [List.getElem?_set_ne same] at isSlot
    exact slots other g t isField isSlot

theorem assign_typed {kind : String} {f : Field} {s : Slot} (typed : v.WellTyped r)
    (assigned : f.assign kind v = .ok s) : s.Typed r f := by
  rcases Field.assign_exact.mp assigned with ⟨optional, -, rfl⟩ | ⟨fits, rfl⟩
  · exact optional
  · exact ⟨fits, typed⟩

theorem set_typed (typed : n.WellTyped r) (value : v.WellTyped r) (stored : n.set name v = .ok after) :
    after.WellTyped r := by
  obtain ⟨index, f, s, -, field, assigned, rfl⟩ := set_exact.mp stored
  exact put_typed typed field (assign_typed value assigned)

theorem ofFields_typed {schema : Schema} {named : List (String × Value)} (member : schema ∈ r.schemas)
    (values : ∀ field ∈ named, field.2.WellTyped r) (made : ofFields schema named = .ok after) :
    after.WellTyped r :=
  setNamed_induct (motive := WellTyped r) (empty_typed member)
    (fun _ _ _ _ typed given stored => set_typed typed (values _ given) stored) made

theorem child_slot {child : Node} (typed : n.WellTyped r) (member : child ∈ n.children) :
    ∃ (index : Nat) (f : Field) (s : Slot), n.schema.fields[index]? = some f ∧ n.slots[index]? = some s ∧
      s.Typed r f ∧ child ∈ s.children := by
  obtain ⟨s, slot, held⟩ := mem_children.mp member
  obtain ⟨index, place⟩ := List.getElem?_of_mem slot
  obtain ⟨-, sized, slots⟩ := wellTyped_index.mp typed
  have bound : index < n.schema.fields.length := sized ▸ (List.getElem?_eq_some_iff.mp place).1
  have field := List.getElem?_eq_getElem bound
  exact ⟨index, _, s, field, place, slots index _ s field place, held⟩

theorem child_field {child : Node} (typed : n.WellTyped r) (distinct : (n.schema.fields.map Field.name).Nodup)
    (member : child ∈ n.children) :
    ∃ f ∈ n.schema.fields, ∃ held, n.slot? f.name = some held ∧ held.Typed r f ∧ child ∈ held.children := by
  obtain ⟨index, f, held, field, place, ofSlot, inside⟩ := child_slot typed member
  refine ⟨f, List.mem_of_getElem? field, held, ?_, ofSlot, inside⟩
  rw [slot?, fieldIndex_place distinct field]
  exact place

theorem child_typed {child : Node} (typed : n.WellTyped r) (member : child ∈ n.children) :
    child.WellTyped r := by
  obtain ⟨-, f, s, -, -, ofSlot, held⟩ := child_slot typed member
  cases s with
  | value v =>
    rcases Value.mem_children.mp held with rfl | ⟨items, found, inside⟩
    · exact ofSlot.2
    · exact (Value.items_typed found).mp ofSlot.2 _ inside
  | _ => cases held

theorem visited_typed {m : Node} : n.WellTyped r → m ∈ n.visited → m.WellTyped r := by
  induction n using children_induct with
  | step n ih =>
    intro typed met
    rcases mem_visited.mp met with rfl | ⟨child, inside, below⟩
    · exact typed
    · exact ih child inside (child_typed typed inside) below

def nodeAt? (n : Node) (name : String) : Option Node := (n.slot? name).bind Slot.node?

def textAt? (n : Node) (name : String) : Option String := (n.get? name).bind Value.text?

def itemsAt (n : Node) (name : String) : List Value := ((n.get? name).bind Value.items?).getD []

theorem nodeAt_child {child : Node} (found : n.nodeAt? name = some child) : child ∈ n.children := by
  obtain ⟨s, slot, held⟩ := Option.bind_eq_some_iff.mp found
  obtain ⟨index, -, place⟩ := Option.bind_eq_some_iff.mp slot
  refine mem_children.mpr ⟨s, List.mem_of_getElem? place, ?_⟩
  cases s with
  | value v =>
    cases v with
    | node c => exact List.mem_singleton.mpr (Option.some.inj held).symm
    | _ => cases held
  | _ => cases held

theorem nodeAt_set {child : Node} (held : n.nodeAt? name = some child) : n.isSet name = true := by
  obtain ⟨s, slot, node⟩ := Option.bind_eq_some_iff.mp held
  cases s with
  | value v =>
    rw [isSet, slot]
    rfl
  | _ => cases node

theorem itemsAt_child {child : Node} (member : .node child ∈ n.itemsAt name) : child ∈ n.children := by
  unfold itemsAt get? at member
  cases slot : n.slot? name with
  | none =>
    rw [slot] at member
    cases member
  | some s =>
    obtain ⟨index, -, place⟩ := Option.bind_eq_some_iff.mp slot
    refine mem_children.mpr ⟨s, List.mem_of_getElem? place, ?_⟩
    rw [slot] at member
    cases s with
    | value v =>
      change .node child ∈ v.items?.getD [] at member
      cases found : v.items? with
      | none =>
        rw [found] at member
        cases member
      | some items =>
        rw [found] at member
        exact Value.mem_children.mpr (.inr ⟨items, found, member⟩)
    | _ => cases member

end Node

end TreeLowering
