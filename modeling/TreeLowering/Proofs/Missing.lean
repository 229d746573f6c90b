import TreeLowering.Proofs.Completion

namespace TreeLowering

def Slot.missing (f : Field) (s : Slot) : List String :=
  if f.cardinality.isMandatory && s.isUnset then [f.name] else []

def Node.missing (n : Node) : List String := n.fields.flatMap fun field => field.2.missing field.1

def Schema.mandatory (s : Schema) : List String := (s.fields.filter fun f => f.cardinality.isMandatory).map Field.name

variable {r : Registry} {kind : String} {f : Field} {names : List String}

theorem Slot.missing_set {s : Slot} (set : s.isUnset = false) : s.missing f = [] := by
  rw [missing, set, Bool.and_false]
  rfl

theorem Slot.finalize_missing {s : Slot} (ok : (s.finalize kind f).2 = .ok names) : names = s.missing f := by
  cases s with
  | unset =>
    unfold missing
    unfold finalize at ok
    cases card : f.cardinality <;> rw [card] at ok <;> cases ok <;> rfl
  | explicitNone =>
    cases ok
    exact (missing_set rfl).symm
  | value v =>
    change (v.finalizeIn _).2.map _ = _ at ok
    rw [missing_set rfl]
    cases outcome : (v.finalizeIn f.cardinality.isSequence).2 with
    | error e =>
      rw [outcome] at ok
      cases ok
    | ok _ =>
      rw [outcome] at ok
      cases ok
      rfl

theorem Slot.finalizeAll_missing {fs : List Field} {ss : List Slot}
    (ok : (finalizeAll kind fs ss).2 = .ok names) :
    names = (fs.zip ss).flatMap fun field => field.2.missing field.1 := by
  induction fs generalizing ss names with
  | nil =>
    rw [finalizeAll_short (.inl rfl)] at ok
    cases ok
    rfl
  | cons f fs ih =>
    cases ss with
    | nil =>
      rw [finalizeAll_short (.inr rfl)] at ok
      cases ok
      rfl
    | cons s ss =>
      rw [finalizeAll_cons] at ok
      generalize split : s.finalize kind f = done at ok
      obtain ⟨t, outcome⟩ := done
      cases outcome with
      | error e => cases ok
      | ok own =>
        cases later : (finalizeAll kind fs ss).2 with
        | error e =>
          rw [later] at ok
          cases ok
        | ok others =>
          rw [later] at ok
          cases ok
          rw [List.zip_cons_cons, List.flatMap_cons, ← ih later, ← finalize_missing (by rw [split])]

theorem Node.missing_unset {n : Node} (sized : n.Sized) (distinct : (n.schema.fields.map Field.name).Nodup) :
    n.missing = n.schema.mandatory.filter fun name => !n.isSet name := by
  have asked : ∀ f : Field, ((n.slot? f.name).getD .unset).missing f =
      if f.cardinality.isMandatory && !n.isSet f.name then [f.name] else [] := by
    intro f
    unfold Slot.missing isSet
    cases n.slot? f.name with
    | none => rfl
    | some s => simp
  unfold missing Schema.mandatory
  rw [fields_named sized distinct, List.flatMap_map]
  simp only [asked]
  induction n.schema.fields with
  | nil => rfl
  | cons f rest ih =>
    rw [List.flatMap_cons, ih, List.filter_cons]
    cases f.cardinality.isMandatory with
    | false => rfl
    | true =>
      simp only [Bool.true_and, if_true, List.map_cons, List.filter_cons]
      split <;> rfl

theorem Slot.finalize_children {s : Slot} (plain : f.Plain) (typed : s.Typed r f)
    (ok : (s.finalize kind f).2 = .ok names) : ∀ child ∈ s.children, child.finalize.2 = .ok () := by
  intro child member
  cases s with
  | value v =>
    obtain ⟨fits, -⟩ := typed
    change (v.finalizeIn _).2.map _ = _ at ok
    have inner : (v.finalizeIn f.cardinality.isSequence).2 = .ok () := by
      cases outcome : (v.finalizeIn f.cardinality.isSequence).2 with
      | ok => rfl
      | error e =>
        rw [outcome] at ok
        cases ok
    have single : ∀ items, v.items? = some items → f.cardinality.isSequence = true := by
      intro items found
      cases repeated : f.cardinality.isSequence with
      | true => rfl
      | false =>
        have accepted := ((Field.fits_single repeated plain.known).mp fits).2
        rw [ElementType.accepts_flat plain.flat accepted] at found
        cases found
    rcases Value.mem_children.mp member with rfl | ⟨items, found, inside⟩
    · cases repeated : f.cardinality.isSequence with
      | true =>
        obtain ⟨items, impossible, -⟩ := Field.fits_repeated repeated fits
        cases impossible
      | false =>
        rw [repeated] at inner
        exact inner
    · rw [single items found] at inner
      have whole : (Value.finalizeAll items).2 = .ok () := by
        cases v <;> cases found <;> exact inner
      exact (Value.finalizeAll_ok whole).2 _ inside
  | _ => cases member

-- Completion in full: it fails at a node that misses something, if there is one.
theorem Node.finalize_complete (plain : r.Plain) (n : Node) : n.WellTyped r →
    (n.finalize.2 = .ok () ∧ ∀ m ∈ n.visited, m.missing = []) ∨
      ∃ m ∈ n.visited, m.missing ≠ [] ∧ n.finalize.2 = .error (.incomplete m.kind m.missing) := by
  induction n using children_induct with
  | step n ih =>
    intro typed
    have below : ∀ child ∈ n.children, _ := fun child inside => ih child inside (child_typed typed inside)
    have plainAt : ∀ {index : Nat} {f : Field}, n.schema.fields[index]? = some f → f.Plain :=
      fun field => plain n.schema typed.member _ (List.mem_of_getElem? field)
    rw [finalize_outcome]
    cases outcome : (Slot.finalizeAll n.kind n.schema.fields n.slots).2 with
    | error e =>
      obtain ⟨index, f, s, field, slot, failed⟩ := Slot.finalizeAll_error outcome
      obtain ⟨child, held, broken⟩ := Slot.finalize_error (plainAt field) failed
      have inside : child ∈ n.children := mem_children.mpr ⟨s, List.mem_of_getElem? slot, held⟩
      rcases below child inside with ⟨fine, -⟩ | ⟨m, met, misses, same⟩
      · rw [fine] at broken
        cases broken
      · cases broken.symm.trans same
        exact .inr ⟨m, mem_visited.mpr (.inr ⟨child, inside, met⟩), misses, rfl⟩
    | ok names =>
      have own : names = n.missing := Slot.finalizeAll_missing outcome
      cases names with
      | cons name rest => exact .inr ⟨n, n.self_visited, own ▸ List.cons_ne_nil _ _, by rw [← own]⟩
      | nil =>
        refine .inl ⟨rfl, fun m met => ?_⟩
        rcases mem_visited.mp met with rfl | ⟨child, inside, further⟩
        · exact own.symm
        · obtain ⟨index, f, s, field, place, ofSlot, held⟩ := child_slot typed inside
          obtain ⟨-, names, ok, -⟩ := Slot.finalizeAll_ok outcome field place
          have fine := Slot.finalize_children (plainAt field) ofSlot ok child held
          rcases below child inside with ⟨-, complete⟩ | ⟨_, _, _, broken⟩
          · exact complete m further
          · rw [fine] at broken
            cases broken

end TreeLowering
