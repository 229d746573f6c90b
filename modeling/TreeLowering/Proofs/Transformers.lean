import TreeLowering.Proofs.Recorded
import TreeLowering.Proofs.TypeCheck

namespace TreeLowering

-- A sequence after its nodes were visited: each of them gave some elements, and all others stand as before.
inductive Woven : List Value → List Value → Prop where
  | nil : Woven [] []
  | node {items rebuilt : List Value} (n : Node) (given : List Value) :
      Woven items rebuilt → Woven (.node n :: items) (given ++ rebuilt)
  | other {items rebuilt : List Value} {v : Value} (plain : v.node? = none) :
      Woven items rebuilt → Woven (v :: items) (v :: rebuilt)

structure Field.Rebuilt (f : Field) (items rebuilt : List Value) : Prop where
  woven : Woven items rebuilt
  others : (items.filter fun v => v.node?.isNone).Sublist rebuilt
  filled : f.cardinality = .oneOrMore → rebuilt ≠ []

def Slot.Intact (kind : String) (f : Field) : Slot → Slot → Prop
  | .value (.node _), after =>
    after = .unset ∨ after = .explicitNone ∨ ∃ v, f.assign kind v = .ok (.value v) ∧ after = .value v
  | .value (.list items), after => ∃ rebuilt, f.Rebuilt items rebuilt ∧ after = .value (.list rebuilt)
  | .value (.tuple items), after => ∃ rebuilt, f.Rebuilt items rebuilt ∧ after = .value (.tuple rebuilt)
  | before, after => after = before

-- A node after its children were visited, field by field.
structure Node.Intact (n after : Node) : Prop where
  schema : after.schema = n.schema
  sized : after.slots.length = n.slots.length
  slot (index : Nat) (f : Field) (before now : Slot) : n.schema.fields[index]? = some f →
    n.slots[index]? = some before → after.slots[index]? = some now → before.Intact n.kind f now
  filled (index : Nat) (f : Field) (v : Value) : after.schema.fields[index]? = some f →
    after.slots[index]? = some (.value v) → f.cardinality = .oneOrMore → v.items? ≠ some []

-- What is set where one element is required is a sequence with elements.
def Node.Populated (n : Node) : Prop :=
  ∀ (index : Nat) f s, n.schema.fields[index]? = some f → n.slots[index]? = some s →
    f.cardinality = .oneOrMore → s = .unset ∨ ∃ v first rest, s = .value v ∧ v.items? = some (first :: rest)

theorem Woven.others {items rebuilt : List Value} (woven : Woven items rebuilt) :
    (items.filter fun v => v.node?.isNone).Sublist rebuilt := by
  induction woven with
  | nil => exact .slnil
  | node n given _ ih => simpa [Value.node?] using ih.trans (List.sublist_append_right given _)
  | other plain _ ih => simpa [plain] using ih

namespace Slot.Intact

variable {kind : String} {f : Field} {before after : Slot}

theorem filled {v : Value} (intact : before.Intact kind f (.value v)) (one : f.cardinality = .oneOrMore) :
    v.items? ≠ some [] := by
  intro empty
  have plain : ∀ w, w.items? = none → Slot.value v ≠ .value w := by
    rintro w none same
    cases same
    rw [none] at empty
    cases empty
  cases before with
  | value w =>
    cases w with
    | node n =>
      obtain unset | none | ⟨w, assigned, same⟩ := intact
      · cases unset
      · cases none
      · cases same
        have fits := Field.assign_value.mp assigned
        rw [Field.fits_items (by rw [one]; rfl) empty] at fits
        exact fits.1 one rfl
    | list | tuple =>
      obtain ⟨rebuilt, all, same⟩ := intact
      cases same
      exact all.filled one (Option.some.inj empty)
    | _ => exact plain _ rfl intact
  | _ => cases intact

theorem populated {r : Registry} (intact : before.Intact kind f after) (typed : before.Typed r f)
    (one : f.cardinality = .oneOrMore) :
    after = .unset ∨ ∃ v first rest, after = .value v ∧ v.items? = some (first :: rest) := by
  cases before with
  | unset => exact .inl intact
  | explicitNone =>
    rw [Slot.Typed, one] at typed
    cases typed
  | value v =>
    obtain ⟨items, sequence, -⟩ := Field.fits_repeated (by rw [one]; rfl) typed.1
    have held : ∀ {rebuilt : List Value}, f.Rebuilt items rebuilt → ∃ first rest, rebuilt = first :: rest :=
      fun all => List.ne_nil_iff_exists_cons.mp (all.filled one)
    cases v <;> cases sequence
    all_goals
      obtain ⟨rebuilt, all, rfl⟩ := intact
      obtain ⟨first, rest, rfl⟩ := held all
      exact .inr ⟨_, first, rest, rfl, rfl⟩

end Slot.Intact

namespace Walk

variable {σ ε α : Type}

theorem ends_anyhow (c : Walk σ ε α) : c.Ends (fun _ => True) fun _ => True := by
  intro s
  split <;> trivial

theorem Ends.of_run {c : Walk σ ε α} {P : α → Prop} {E : ε → Prop} {s t : σ} {a : α} (ends : c.Ends P E)
    (ran : c.run s = (.ok a, t)) : P a := by
  have all := ends s
  rwa [ran] at all

theorem ends_assigned [OfNodeError ε] {outcome : Except NodeError α} {P : α → Prop}
    (holds : ∀ a, outcome = .ok a → P a) : (ofAssign outcome : Walk σ ε α).Ends P fun _ => True := by
  cases outcome with
  | ok a => exact ends_pure (holds a rfl)
  | error e => exact ends_throw trivial

end Walk

section Transformer

variable {σ ε : Type} (visit : Node → Walk σ ε Replacement)

theorem Value.transformAll_woven (items : List Value) :
    (Value.transformAll visit items).Ends (Woven items) fun _ => True := by
  induction items with
  | nil => exact Walk.ends_pure .nil
  | cons v rest ih =>
    cases v with
    | node n =>
      refine (visit n).ends_anyhow.bind fun r _ => ih.bind fun rebuilt woven => Walk.ends_pure ?_
      exact .node n r.elements woven
    | _ => exact ih.bind fun rebuilt woven => Walk.ends_pure (.other rfl woven)

variable [OfNodeError ε]

theorem Field.install_intact {kind : String} {f : Field} {n : Node} {r : Replacement} {s : Slot}
    (installed : f.install kind r = .ok s) : (Slot.value (.node n)).Intact kind f s := by
  have assigned : ∀ {v}, f.assign kind v = .ok s → (Slot.value (.node n)).Intact kind f s := by
    intro v stored
    rcases assign_exact.mp stored with ⟨-, -, rfl⟩ | ⟨-, rfl⟩
    · exact .inr (.inl rfl)
    · exact .inr (.inr ⟨v, stored, rfl⟩)
  cases r with
  | value v => exact assigned installed
  | splice vs => exact assigned installed
  | explicitNone =>
    cases installed
    exact .inr (.inl rfl)
  | delete =>
    cases installed
    exact .inl rfl

theorem Field.refill_rebuilt {kind : String} {f : Field} {form : List Value → Value}
    {items rebuilt : List Value} {s : Slot} (woven : Woven items rebuilt)
    (refilled : f.refill kind form rebuilt = .ok s) : f.Rebuilt items rebuilt ∧ s = .value (form rebuilt) := by
  unfold refill at refilled
  split at refilled
  · cases refilled
  · next filled =>
    cases refilled
    rw [Bool.and_eq_true, List.isEmpty_iff, beq_iff_eq, not_and'] at filled
    exact ⟨⟨woven, woven.others, filled⟩, rfl⟩

theorem Slot.transform_intact (kind : String) (f : Field) (s : Slot) :
    (s.transform visit kind f).Ends (s.Intact kind f) fun _ => True := by
  cases s with
  | value v =>
    cases v with
    | node n =>
      refine (visit n).ends_anyhow.bind fun r _ => Walk.ends_assigned fun after installed => ?_
      exact Field.install_intact installed
    | list items | tuple items =>
      refine (Value.transformAll_woven visit items).bind fun rebuilt woven =>
        Walk.ends_assigned fun after refilled => ?_
      exact ⟨rebuilt, Field.refill_rebuilt woven refilled⟩
    | _ => exact Walk.ends_pure rfl
  | _ => exact Walk.ends_pure rfl

theorem Slot.transformAll_intact (kind : String) (fs : List Field) (ss : List Slot) :
    (Slot.transformAll visit kind fs ss).Ends (fun afters => afters.length = ss.length ∧
      ∀ (index : Nat) f before now, fs[index]? = some f → ss[index]? = some before →
        afters[index]? = some now → before.Intact kind f now) fun _ => True := by
  induction fs generalizing ss with
  | nil => exact Walk.ends_pure ⟨rfl, nofun⟩
  | cons f fs ih =>
    cases ss with
    | nil => exact Walk.ends_pure ⟨rfl, nofun⟩
    | cons s ss =>
      refine (s.transform_intact visit kind f).bind fun after first =>
        (ih ss).bind fun afters rest => Walk.ends_pure ⟨by simp [rest.1], ?_⟩
      intro index g before now field slot found
      cases index with
      | zero =>
        cases field
        cases slot
        cases found
        exact first
      | succ index => exact rest.2 index g before now field slot found

theorem Node.transformChildren_intact (n : Node) :
    (n.transformChildren visit).Ends n.Intact fun _ => True := by
  refine (Slot.transformAll_intact visit n.kind n.schema.fields n.slots).bind fun afters all =>
    Walk.ends_pure ⟨rfl, all.1, all.2, fun index f v field found one => ?_⟩
  have bound : index < n.slots.length := all.1 ▸ (List.getElem?_eq_some_iff.mp found).1
  exact (all.2 index f n.slots[index] (.value v) field (List.getElem?_eq_getElem bound) found).filled one

-- What a transformer does with a node unless it says otherwise.
def Node.genericVisit (n : Node) : Walk σ ε Replacement := do
  let settled ← n.transformChildren visit
  return .ofNode settled

theorem Node.genericVisit_intact (n : Node) :
    (n.genericVisit visit).Ends (fun r => ∃ settled, r = .ofNode settled ∧ n.Intact settled) fun _ => True :=
  (n.transformChildren_intact visit).bind fun settled intact => Walk.ends_pure ⟨settled, rfl, intact⟩

end Transformer

namespace Node

theorem Intact.populated {r : Registry} {n settled : Node} (intact : n.Intact settled)
    (typed : n.WellTyped r) : settled.Populated := by
  intro index f s field slot one
  rw [intact.schema] at field
  have bound : index < n.slots.length := intact.sized ▸ (List.getElem?_eq_some_iff.mp slot).1
  have before := List.getElem?_eq_getElem bound
  exact (intact.slot index f _ s field before slot).populated
    ((wellTyped_index.mp typed).2.2 index f _ field before) one

theorem transform_leaves {σ ε : Type} [OfNodeError ε] (enter : Node → Walk σ ε (Visit σ ε)) {n : Node}
    (sized : ∀ m ∈ n.visited, m.Sized) (s : σ) : ∃ left,
      (n.transform (recorded enter)).run (s, []) =
        (((n.transform enter).run s).1, (((n.transform enter).run s).2, left)) ∧
      ∀ l ∈ left, l.Of enter n := by
  have accounts : Accounts enter fun _ _ _ _ => True := by constructor <;> intros <;> trivial
  obtain ⟨left, ran, stems, -⟩ := transform_records accounts sized s []
  exact ⟨left, ran, stems⟩

theorem transformer_intact {σ ε : Type} [OfNodeError ε] {r : Registry} {n : Node} (typed : n.WellTyped r)
    (visit : Node → Walk σ ε Replacement) (enter : Node → Walk σ ε (Visit σ ε)) (s : σ) :
    (∀ settled t, (n.transformChildren visit).run s = (.ok settled, t) →
      n.Intact settled ∧ settled.Populated) ∧
    (∀ (given : Node) replacement u v, (given.genericVisit visit).run u = (.ok replacement, v) →
      ∃ settled, replacement = .ofNode settled ∧ given.Intact settled ∧
        (given.WellTyped r → settled.Populated)) ∧
    ∃ left, (n.transform (recorded enter)).run (s, []) =
        (((n.transform enter).run s).1, (((n.transform enter).run s).2, left)) ∧
      ∀ l ∈ left, l.entered ∈ n.visited ∧ l.entered.Intact l.settled ∧ l.settled.Populated := by
  refine ⟨fun settled t ran => ?_, fun given replacement u v ran => ?_, ?_⟩
  · have intact := (n.transformChildren_intact visit).of_run ran
    exact ⟨intact, intact.populated typed⟩
  · obtain ⟨settled, same, intact⟩ := (given.genericVisit_intact visit).of_run ran
    exact ⟨settled, same, intact, intact.populated⟩
  · obtain ⟨left, ran, stems⟩ := transform_leaves enter (fun m met => (visited_typed typed met).sized) s
    refine ⟨left, ran, fun l inside => ?_⟩
    obtain ⟨met, t, u, settles⟩ := stems l inside
    have intact := (l.entered.transformChildren_intact _).of_run settles
    exact ⟨met, intact, intact.populated (visited_typed typed met)⟩

def item : Schema := ⟨"Item", none, [], 0, 0⟩

def shelf : Schema :=
  ⟨"Shelf", none, [⟨"label", .string, .required⟩, ⟨"front", .kind "Item", .optional⟩,
    ⟨"stock", .object, .oneOrMore⟩], 0, 0⟩

def stocked : Node :=
  .mk shelf [.value (.str "tea"), .value (.node (empty item)),
    .value (.list [.int 1, .node (empty item), .int 2, .node (empty item)])]

-- Takes away the first item that it meets, unpacks the second, and says of others that there is none.
def selling (_ : Node) : Walk Nat NodeError Replacement := fun sold =>
  (.ok (match sold with
    | 0 => .delete
    | 1 => .splice [.str "green", .str "black"]
    | _ => .explicitNone), sold + 1)

theorem stocked_intact : stocked.WellTyped ⟨0, [item, shelf]⟩ ∧
    ∃ after, (stocked.transformChildren selling).run 0 = (.ok after, 3) ∧
      after.slots = [.value (.str "tea"), .unset,
        .value (.list [.int 1, .str "green", .str "black", .int 2, .none])] ∧
      stocked.Intact after ∧ after.Populated := by
  have typed : stocked.WellTyped ⟨0, [item, shelf]⟩ := by decide
  exact ⟨typed, _, rfl, rfl, (transformer_intact typed selling (fun _ => return .generic) 0).1 _ 3 rfl⟩

end Node

end TreeLowering
