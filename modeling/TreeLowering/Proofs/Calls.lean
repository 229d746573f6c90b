import TreeLowering.Proofs.Completion
import TreeLowering.Proofs.TranslatedTypes
import TreeLowering.Proofs.Lowered

namespace TreeLowering

-- Well-typed over the schemas that occur in it, of whichever registries they are.
def Value.Sound (v : Value) : Prop := ∃ r : Registry, v.WellTyped r

def Slot.Sound (f : Field) (s : Slot) : Prop := ∃ r : Registry, s.Typed r f

def Node.Sound (n : Node) : Prop := ∃ r : Registry, n.WellTyped r

def Registry.join (r other : Registry) : Registry := ⟨r.origin, r.schemas ++ other.schemas⟩

section Wider

variable {r other : Registry}

-- More schemas do no harm.
mutual
theorem Node.typed_wider (within : r.schemas ⊆ other.schemas) (n : Node) (typed : n.WellTyped r) :
    n.WellTyped other := by
  cases n with
  | mk schema slots => exact ⟨within typed.1, Slot.allTyped_wider within schema.fields slots typed.2⟩
termination_by structural n

theorem Slot.allTyped_wider (within : r.schemas ⊆ other.schemas) (fs : List Field) (ss : List Slot)
    (typed : Slot.AllTyped r fs ss) : Slot.AllTyped other fs ss := by
  cases ss with
  | nil =>
    cases fs with
    | nil => trivial
    | cons f fs => exact typed.elim
  | cons s ss =>
    cases fs with
    | nil => exact typed.elim
    | cons f fs => exact ⟨Slot.typed_wider within f s typed.1, Slot.allTyped_wider within fs ss typed.2⟩
termination_by structural ss

theorem Slot.typed_wider (within : r.schemas ⊆ other.schemas) (f : Field) (s : Slot) (typed : s.Typed r f) :
    s.Typed other f := by
  cases s with
  | unset => trivial
  | explicitNone => exact typed
  | value v => exact ⟨typed.1, Value.typed_wider within v typed.2⟩
termination_by structural s

theorem Value.typed_wider (within : r.schemas ⊆ other.schemas) (v : Value) (typed : v.WellTyped r) :
    v.WellTyped other := by
  cases v with
  | node n => exact Node.typed_wider within n typed
  | list items => exact Value.allTyped_wider within items typed
  | tuple items => exact Value.allTyped_wider within items typed
  | _ => trivial
termination_by structural v

theorem Value.allTyped_wider (within : r.schemas ⊆ other.schemas) (items : List Value)
    (typed : Value.AllTyped r items) : Value.AllTyped other items := by
  cases items with
  | nil => trivial
  | cons v rest => exact ⟨Value.typed_wider within v typed.1, Value.allTyped_wider within rest typed.2⟩
termination_by structural items
end

end Wider

namespace Registry

theorem join_left (r other : Registry) : r.schemas ⊆ (r.join other).schemas := List.subset_append_left ..

theorem join_right (r other : Registry) : other.schemas ⊆ (r.join other).schemas := List.subset_append_right ..

end Registry

theorem Value.sound_together {items : List Value} (sound : ∀ v ∈ items, v.Sound) :
    ∃ r : Registry, ∀ v ∈ items, v.WellTyped r := by
  induction items with
  | nil => exact ⟨.empty 0, List.forall_mem_nil _⟩
  | cons v rest ih =>
    rw [List.forall_mem_cons] at sound
    obtain ⟨r, first⟩ := sound.1
    obtain ⟨other, others⟩ := ih sound.2
    refine ⟨r.join other, List.forall_mem_cons.mpr ⟨v.typed_wider (r.join_left other) first, ?_⟩⟩
    exact fun w member => w.typed_wider (r.join_right other) (others w member)

namespace Node

variable {n after : Node} {r : Registry} {name : String} {v : Value}

-- A sound node, field by field: one slot for each, unset, without a value where that is allowed, or with a
-- value that fits and is sound in turn.
theorem sound_index : n.Sound ↔ n.Sized ∧
    ∀ (index : Nat) f (s : Slot), n.schema.fields[index]? = some f → n.slots[index]? = some s → s.Sound f := by
  constructor
  · intro sound
    obtain ⟨r, typed⟩ := sound
    obtain ⟨-, sized, slots⟩ := wellTyped_index.mp typed
    exact ⟨sized, fun index f s field slot => ⟨r, slots index f s field slot⟩⟩
  · intro shape
    obtain ⟨sized, slots⟩ := shape
    obtain ⟨schema, ss⟩ := n
    -- One registry for the slots that were looked at.
    have together : ∀ (fs : List Field) (ss : List Slot), ss.length = fs.length →
        (∀ (index : Nat) f (s : Slot), fs[index]? = some f → ss[index]? = some s → s.Sound f) →
        ∃ r, Slot.AllTyped r fs ss := by
      intro fs
      induction fs with
      | nil =>
        intro ss sized _
        rw [List.eq_nil_of_length_eq_zero sized]
        exact ⟨.empty 0, trivial⟩
      | cons f fs ih =>
        intro ss sized each
        cases ss with
        | nil => cases sized
        | cons s ss =>
          obtain ⟨r, first⟩ := each 0 f s rfl rfl
          obtain ⟨other, others⟩ := ih ss (Nat.succ.inj sized) fun index => each (index + 1)
          exact ⟨r.join other, Slot.typed_wider (r.join_left other) f s first,
            Slot.allTyped_wider (r.join_right other) fs ss others⟩
    obtain ⟨r, typed⟩ := together schema.fields ss sized slots
    refine ⟨⟨r.origin, schema :: r.schemas⟩, List.mem_cons_self .., ?_⟩
    exact Slot.allTyped_wider (List.subset_cons_self ..) _ _ typed

theorem remove_typed (typed : n.WellTyped r) (removed : n.remove name = .ok after) : after.WellTyped r := by
  unfold remove indexOf at removed
  cases found : n.schema.fieldIndex? name with
  | none =>
    rw [found] at removed
    cases removed
  | some index =>
    rw [found] at removed
    cases removed
    obtain ⟨f, field, -⟩ := fieldIndex_field found
    exact put_typed typed field trivial

theorem take_typed {held : Option Value} (typed : n.WellTyped r) (taken : n.take name = .ok (held, after)) :
    after.WellTyped r ∧ ∀ v, held = some v → v.WellTyped r := by
  unfold take indexOf at taken
  cases found : n.schema.fieldIndex? name with
  | none =>
    rw [found] at taken
    cases taken
  | some index =>
    rw [found] at taken
    cases taken
    obtain ⟨f, field, -⟩ := fieldIndex_field found
    refine ⟨put_typed typed field trivial, fun v same => ?_⟩
    obtain ⟨s, slot, value⟩ := Option.bind_eq_some_iff.mp same
    have ofSlot := (wellTyped_index.mp typed).2.2 index f s field slot
    cases s with
    | value w =>
      cases value
      exact ofSlot.2
    | _ => cases value

theorem setAt_typed {index : Nat} (typed : n.WellTyped r) (value : v.WellTyped r)
    (stored : n.setAt index v = .ok after) : after.WellTyped r := by
  unfold setAt at stored
  cases field : n.schema.fields[index]? with
  | none =>
    rw [field] at stored
    cases stored
    exact typed
  | some f =>
    rw [field] at stored
    cases assigned : f.assign n.kind v with
    | error e =>
      simp only [assigned] at stored
      cases stored
    | ok s =>
      simp only [assigned] at stored
      cases stored
      exact put_typed typed field (assign_typed value assigned)

theorem setAll_typed {index : Nat} {values : List Value} (typed : n.WellTyped r)
    (given : ∀ v ∈ values, v.WellTyped r) (stored : n.setAll index values = .ok after) :
    after.WellTyped r := by
  induction values generalizing n index with
  | nil =>
    cases stored
    exact typed
  | cons v rest ih =>
    rw [List.forall_mem_cons] at given
    rw [setAll] at stored
    cases first : n.setAt index v with
    | error e =>
      rw [first] at stored
      cases stored
    | ok middle =>
      rw [first] at stored
      exact ih (setAt_typed typed given.1 first) given.2 stored

theorem make_typed {schema : Schema} {positional : List Value} {named : List (String × Value)}
    (member : schema ∈ r.schemas) (values : ∀ v ∈ positional, v.WellTyped r)
    (fields : ∀ field ∈ named, field.2.WellTyped r) (made : make schema positional named = .ok after) :
    after.WellTyped r := by
  unfold make at made
  dsimp only at made
  split at made
  · cases made
  · cases first : (empty schema).setAll 0 positional with
    | error e =>
      rw [first] at made
      cases made
    | ok middle =>
      rw [first] at made
      exact setNamed_induct (motive := WellTyped r) (setAll_typed (empty_typed member) values first)
        (fun _ _ _ _ typed given stored => set_typed typed (fields _ given) stored) made

end Node

inductive Call where
  | set (name : String) (v : Value)
  | remove (name : String)
  | take (name : String)
  | finalize

namespace Call

-- The values that a call brings in are sound.
def Sound : Call → Prop
  | set _ v => v.Sound
  | _ => True

-- The node that a call leaves. One that is refused leaves the node as it was; a completion that stops keeps
-- what it did before.
def run (n : Node) : Call → Node
  | set name v => (n.set name v).toOption.getD n
  | remove name => (n.remove name).toOption.getD n
  | take name => ((n.take name).toOption.map Prod.snd).getD n
  | finalize => n.finalize.1

def runAll (n : Node) (calls : List Call) : Node := calls.foldl run n

theorem run_sound {n : Node} {call : Call} (sound : n.Sound) (given : call.Sound) : (run n call).Sound := by
  obtain ⟨r, typed⟩ := sound
  cases call with
  | set name v =>
    change ((n.set name v).toOption.getD n).Sound
    cases stored : n.set name v with
    | error e => exact ⟨r, typed⟩
    | ok after =>
      obtain ⟨other, value⟩ := given
      exact ⟨r.join other, Node.set_typed (n.typed_wider (r.join_left other) typed)
        (v.typed_wider (r.join_right other) value) stored⟩
  | remove name =>
    change ((n.remove name).toOption.getD n).Sound
    cases removed : n.remove name with
    | error e => exact ⟨r, typed⟩
    | ok after => exact ⟨r, Node.remove_typed typed removed⟩
  | take name =>
    change (((n.take name).toOption.map Prod.snd).getD n).Sound
    cases taken : n.take name with
    | error e => exact ⟨r, typed⟩
    | ok both => exact ⟨r, (Node.take_typed typed taken).1⟩
  | finalize => exact ⟨r, n.finalize_typed typed⟩

theorem runAll_sound {n : Node} {calls : List Call} (sound : n.Sound) (given : ∀ call ∈ calls, call.Sound) :
    (runAll n calls).Sound := by
  unfold runAll
  induction calls generalizing n with
  | nil => exact sound
  | cons call rest ih =>
    rw [List.forall_mem_cons] at given
    exact ih (run_sound sound given.1) given.2

end Call

namespace Node

variable {schema : Schema} {positional : List Value} {named : List (String × Value)} {n : Node}

theorem empty_sound (schema : Schema) : (empty schema).Sound := ⟨⟨0, [schema]⟩, empty_typed (List.mem_cons_self ..)⟩

theorem make_sound (values : ∀ v ∈ positional, v.Sound) (fields : ∀ field ∈ named, field.2.Sound)
    (made : make schema positional named = .ok n) : n.Sound := by
  have all : ∀ v ∈ positional ++ named.map Prod.snd, v.Sound := by
    intro v member
    rcases List.mem_append.mp member with given | given
    · exact values v given
    · obtain ⟨field, inside, rfl⟩ := List.mem_map.mp given
      exact fields field inside
  obtain ⟨r, typed⟩ := Value.sound_together all
  have wider : r.schemas ⊆ schema :: r.schemas := List.subset_cons_self ..
  refine ⟨⟨r.origin, schema :: r.schemas⟩, make_typed (List.mem_cons_self ..) ?_ ?_ made⟩
  · exact fun v given => v.typed_wider wider (typed v (List.mem_append_left _ given))
  · exact fun field given => field.2.typed_wider wider
      (typed field.2 (List.mem_append_right _ (List.mem_map_of_mem given)))

end Node

theorem Translator.sound_carries {t : Translator} (custom : ∀ kind convert,
    Keyed.lookup? kind t.handlers = some (.custom convert) → ∀ n made, convert n = some made → made.Sound) :
    t.Carries Value.Sound where
  constant v constant := ⟨.empty 0, by cases v <;> trivial⟩
  list items sound := by
    obtain ⟨r, typed⟩ := Value.sound_together sound
    exact ⟨r, Value.allTyped_mem.mpr typed⟩
  made schema named n _ values ok := Node.make_sound (List.forall_mem_nil _) values ok
  custom := custom

-- A node stays sound through all calls, from whichever construction on; and translations are sound.
theorem Call.sound_throughout (schema : Schema) (positional : List Value) (named : List (String × Value))
    (calls : List Call) (values : ∀ v ∈ positional, v.Sound) (fields : ∀ field ∈ named, field.2.Sound)
    (given : ∀ call ∈ calls, call.Sound) :
    (Call.runAll (.empty schema) calls).Sound ∧
    (∀ n, Node.make schema positional named = .ok n → (Call.runAll n calls).Sound) ∧
    ∀ t : Translator, (∀ kind convert, Keyed.lookup? kind t.handlers = some (.custom convert) →
      ∀ n made, convert n = some made → made.Sound) →
      ∀ n tree, (t.convert n).1 = .ok tree → tree.Sound := by
  refine ⟨runAll_sound (Node.empty_sound schema) given, fun n made => ?_, fun t custom n tree ok => ?_⟩
  · exact runAll_sound (Node.make_sound values fields made) given
  · exact Translator.convert_carried (Translator.sound_carries custom) ok

-- Assignments that fit and that do not, parts moved out, and completions that stop on the way.
def Call.loopCalls : List Call :=
  [.set "iter" (.int 3), .finalize, .set "body" (.ofNodes [.empty Core.leave]), .take "target", .set "body" (.list []),
    .remove "body", .set "next" .none, .finalize]

theorem Call.loopCalls_sound :
    (Call.runAll (.empty Core.forLoop) loopCalls).Sound ∧
    (∀ n, Node.make Core.forLoop [] [("target", .node (Lowered.store "x"))] = .ok n →
      (Call.runAll n loopCalls).Sound) ∧
    ∀ t : Translator, (∀ kind convert, Keyed.lookup? kind t.handlers = some (.custom convert) →
      ∀ n made, convert n = some made → made.Sound) →
      ∀ n tree, (t.convert n).1 = .ok tree → tree.Sound := by
  have stored : (Value.node (Lowered.store "x")).Sound :=
    ⟨⟨0, [Core.name, Core.store]⟩, List.mem_cons_self .., ⟨rfl, trivial⟩,
      ⟨rfl, List.mem_cons_of_mem _ (List.mem_cons_self ..), trivial⟩, trivial⟩
  have left : (Value.ofNodes [.empty Core.leave]).Sound :=
    ⟨⟨0, [Core.leave]⟩, ⟨List.mem_cons_self .., trivial⟩, trivial⟩
  refine sound_throughout Core.forLoop [] [("target", .node (Lowered.store "x"))] loopCalls
    (List.forall_mem_nil _) (by simpa using stored) ?_
  simpa [loopCalls, Call.Sound, left] using ⟨⟨.empty 0, trivial⟩, ⟨.empty 0, trivial⟩, ⟨.empty 0, trivial⟩⟩

end TreeLowering
