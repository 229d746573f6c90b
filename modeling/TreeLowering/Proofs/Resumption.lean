import TreeLowering.Proofs.Completeness
import TreeLowering.Proofs.Lowered

namespace TreeLowering

theorem Value.finalizeAll_again {items : List Value}
    (below : ∀ n, .node n ∈ items → n.finalize.1.finalize = n.finalize) :
    finalizeAll (finalizeAll items).1 = finalizeAll items := by
  induction items with
  | nil => rfl
  | cons v rest ih =>
    have first : v.finalizeElement.1.finalizeElement = v.finalizeElement := by
      cases v with
      | node n =>
        have again := below n (List.mem_cons_self ..)
        change (node n.finalize.1.finalize.1, n.finalize.1.finalize.2) = (node n.finalize.1, n.finalize.2)
        rw [again]
      | _ => rfl
    have others := ih fun n member => below n (List.mem_cons_of_mem _ member)
    rw [finalizeAll_cons v]
    generalize v.finalizeElement = done at first
    obtain ⟨after, outcome⟩ := done
    cases outcome with
    | error e => rw [finalizeAll_cons, first]
    | ok _ => rw [finalizeAll_cons, first, others]

theorem Slot.finalize_again (kind : String) (f : Field) {s : Slot}
    (below : ∀ child ∈ s.children, child.finalize.1.finalize = child.finalize) :
    (s.finalize kind f).1.finalize kind f = s.finalize kind f := by
  cases s with
  | unset =>
    cases card : f.cardinality with
    | zeroOrMore =>
      simp only [finalize, card]
      rfl
    | _ => simp only [finalize, card]
  | explicitNone => rfl
  | value v =>
    have shape : ∀ w : Value, (value w).finalize kind f =
        (.value (w.finalizeIn f.cardinality.isSequence).1,
          (w.finalizeIn f.cardinality.isSequence).2.map fun _ => []) := fun _ => rfl
    have again : (v.finalizeIn f.cardinality.isSequence).1.finalizeIn f.cardinality.isSequence =
        v.finalizeIn f.cardinality.isSequence := by
      rcases Value.finalizeIn_cases f.cardinality.isSequence v with
        ⟨items, repeated, found, done⟩ | ⟨n, single, rfl, done⟩ | ⟨-, -, done⟩
      · have elements := Value.finalizeAll_again fun n member =>
          below n (Value.mem_children.mpr (.inr ⟨items, found, member⟩))
        rw [done, repeated]
        change (Value.tuple (Value.finalizeAll (Value.finalizeAll items).1).1, _) = _
        rw [elements]
      · have inner := below n (Value.mem_children.mpr (.inl rfl))
        rw [done, single]
        change (Value.node n.finalize.1.finalize.1, n.finalize.1.finalize.2) = _
        rw [inner]
      · rw [done, done]
    rw [shape, shape, again]

theorem Slot.finalizeAll_again (kind : String) (fs : List Field) {ss : List Slot}
    (below : ∀ s ∈ ss, ∀ child ∈ s.children, child.finalize.1.finalize = child.finalize) :
    finalizeAll kind fs (finalizeAll kind fs ss).1 = finalizeAll kind fs ss := by
  induction fs generalizing ss with
  | nil => rw [finalizeAll_short (.inl rfl), finalizeAll_short (.inl rfl)]
  | cons f fs ih =>
    cases ss with
    | nil => rw [finalizeAll_short (.inr rfl), finalizeAll_short (.inr rfl)]
    | cons s ss =>
      rw [List.forall_mem_cons] at below
      have first := finalize_again kind f below.1
      have others := ih below.2
      rw [finalizeAll_cons s]
      generalize s.finalize kind f = done at first
      obtain ⟨after, outcome⟩ := done
      cases outcome with
      | error e => rw [finalizeAll_cons, first]
      | ok names => rw [finalizeAll_cons, first, others]

-- The induction is on the tree: a node that failed on the way keeps what its children kept.
theorem Node.finalize_again (n : Node) : n.finalize.1.finalize = n.finalize := by
  induction n using Node.children_induct with
  | step n ih =>
    obtain ⟨schema, slots⟩ := n
    have again := Slot.finalizeAll_again schema.kind schema.fields
      fun s slot child inside => ih child (mem_children.mpr ⟨s, slot, inside⟩)
    rw [Node.slots] at again
    rw [finalize_slots, finalize, Node.schema, Node.slots, Node.kind, Node.schema, again]
    rfl

-- Some of the slots have been completed already.
inductive Slot.AllAhead (kind : String) : List Field → List Slot → List Slot → Prop where
  | bare {ss : List Slot} : AllAhead kind [] ss ss
  | nil {fs : List Field} : AllAhead kind fs [] []
  | cons {f : Field} {s t : Slot} {fs : List Field} {ss ts : List Slot} (own : t = s ∨ t = (s.finalize kind f).1)
      (others : AllAhead kind fs ss ts) : AllAhead kind (f :: fs) (s :: ss) (t :: ts)

-- The same, and behind what stops completion nothing has been completed.
inductive Slot.AllResume (kind : String) : List Field → List Slot → List Slot → Prop where
  | bare {ss : List Slot} : AllResume kind [] ss ss
  | nil {fs : List Field} : AllResume kind fs [] []
  | passed {f : Field} {s t : Slot} {fs : List Field} {ss ts : List Slot} (passes : s.Passes f)
      (own : t = s ∨ t = (s.finalize kind f).1) (others : AllResume kind fs ss ts) :
      AllResume kind (f :: fs) (s :: ss) (t :: ts)
  | stopped {f : Field} {s t : Slot} {fs : List Field} {ss : List Slot} (own : t = s ∨ t = (s.finalize kind f).1) :
      AllResume kind (f :: fs) (s :: ss) (t :: ss)

namespace Slot

variable {kind : String} {f : Field} {s t : Slot} {fs : List Field} {ss ts : List Slot}

theorem finalize_ahead (own : t = s ∨ t = (s.finalize kind f).1) : t.finalize kind f = s.finalize kind f := by
  rcases own with rfl | rfl
  · rfl
  · exact finalize_again kind f fun child _ => child.finalize_again

theorem stop_finalize (same : t.finalize kind f = s.finalize kind f) :
    t.stop? kind f = s.stop? kind f ∧ (s.stop? kind f = none → t.missing f = s.missing f) := by
  have outcomes := congrArg Prod.snd same
  rw [finalize_outcome, finalize_outcome] at outcomes
  generalize s.stop? kind f = first, t.stop? kind f = second at outcomes ⊢
  cases second with
  | none =>
    cases first with
    | none => exact ⟨rfl, fun _ => Except.ok.inj outcomes⟩
    | some e => cases outcomes
  | some e =>
    cases first with
    | none => cases outcomes
    | some e' => exact ⟨congrArg some (Except.error.inj outcomes), nofun⟩

theorem AllAhead.refl : ∀ (fs : List Field) (ss : List Slot), AllAhead kind fs ss ss
  | [], _ => .bare
  | _ :: _, [] => .nil
  | _ :: fs, _ :: ss => .cons (.inl rfl) (refl fs ss)

theorem AllResume.ahead (resume : AllResume kind fs ss ts) : AllAhead kind fs ss ts := by
  induction resume with
  | bare => exact .bare
  | nil => exact .nil
  | passed _ own _ ih => exact .cons own ih
  | stopped own => exact .cons own (.refl _ _)

theorem finalizeAll_resume (fs : List Field) (ss : List Slot) : AllResume kind fs ss (finalizeAll kind fs ss).1 := by
  induction fs generalizing ss with
  | nil =>
    rw [finalizeAll_short (.inl rfl)]
    exact .bare
  | cons f fs ih =>
    cases ss with
    | nil =>
      rw [finalizeAll_short (.inr rfl)]
      exact .nil
    | cons s ss =>
      cases stops : s.stop? kind f with
      | some e =>
        rw [finalizeAll_stopped stops]
        exact .stopped (.inr rfl)
      | none =>
        rw [finalizeAll_unstopped stops]
        exact .passed (stop_passes.mp stops) (.inr rfl) (ih ss)

theorem AllAhead.set (ahead : AllAhead kind fs ss ts) (index : Nat) (x : Slot) :
    AllAhead kind fs (ss.set index x) (ts.set index x) := by
  induction ahead generalizing index with
  | bare => exact .bare
  | nil => exact .nil
  | cons own others ih =>
    cases index with
    | zero => exact .cons (.inl rfl) others
    | succ index => exact .cons own (ih index)

theorem AllResume.set (resume : AllResume kind fs ss ts) {index : Nat} {x : Slot} (field : fs[index]? = some f)
    (passes : x.Passes f) : AllResume kind fs (ss.set index x) (ts.set index x) := by
  induction resume generalizing index with
  | bare => exact .bare
  | nil => exact .nil
  | passed first own others ih =>
    cases index with
    | zero =>
      cases field
      exact .passed passes (.inl rfl) others
    | succ index => exact .passed first own (ih field)
  | stopped own =>
    cases index with
    | zero => exact .stopped (.inl rfl)
    | succ index => exact .stopped own

theorem AllResume.finalizeAll (resume : AllResume kind fs ss ts) :
    finalizeAll kind fs ts = finalizeAll kind fs ss := by
  induction resume with
  | bare => rfl
  | nil => rfl
  | @passed f s t fs ss ts passes own others ih =>
    have same := finalize_ahead own
    have unstopped : s.stop? kind f = none := stop_passes.mpr passes
    rw [finalizeAll_unstopped unstopped, finalizeAll_unstopped ((stop_finalize same).1.trans unstopped), same, ih,
      (stop_finalize same).2 unstopped]
  | @stopped f s t fs ss own =>
    have same := finalize_ahead own
    rw [finalizeAll_cons, finalizeAll_cons, same]

theorem passes_ahead (own : t = s ∨ t = (s.finalize kind f).1) : t.Passes f ↔ s.Passes f := by
  have same : t.stop? kind f = s.stop? kind f := (stop_finalize (finalize_ahead own)).1
  constructor
  · exact fun passes => stop_passes.mp (same.symm.trans (stop_passes.mpr passes))
  · exact fun passes => stop_passes.mp (same.trans (stop_passes.mpr passes))

theorem AllAhead.passes (ahead : AllAhead kind fs ss ts) (index : Nat) :
    (∃ field, (fs.zip ts)[index]? = some field ∧ ¬ field.2.Passes field.1) ↔
      ∃ field, (fs.zip ss)[index]? = some field ∧ ¬ field.2.Passes field.1 := by
  induction ahead generalizing index with
  | bare => exact Iff.rfl
  | nil => exact Iff.rfl
  | cons own others ih =>
    cases index with
    | zero => simp [passes_ahead own]
    | succ index => simpa using ih index

theorem AllAhead.outcome (ahead : AllAhead kind fs ss ts) :
    (Slot.finalizeAll kind fs ts).2 = (Slot.finalizeAll kind fs ss).2 := by
  induction ahead with
  | bare => rfl
  | nil => rfl
  | @cons f s t fs ss ts own others ih =>
    have same := finalize_ahead own
    cases stops : s.stop? kind f with
    | some e => rw [finalizeAll_stopped stops, finalizeAll_stopped ((stop_finalize same).1.trans stops)]
    | none =>
      rw [finalizeAll_unstopped stops, finalizeAll_unstopped ((stop_finalize same).1.trans stops),
        (stop_finalize same).2 stops, ih]

theorem AllAhead.reached (ahead : AllAhead kind fs ss ts) {index : Nat}
    (free : ∀ earlier < index, ¬ ∃ field, (fs.zip ss)[earlier]? = some field ∧ ¬ field.2.Passes field.1) :
    (Slot.finalizeAll kind fs ts).1[index]? = (Slot.finalizeAll kind fs ss).1[index]? := by
  induction ahead generalizing index with
  | bare => rfl
  | nil => rfl
  | @cons f s t fs ss ts own others ih =>
    have same := finalize_ahead own
    cases index with
    | zero =>
      rw [finalizeAll_cons, finalizeAll_cons, same]
      cases s.finalize kind f with
      | mk after outcome => cases outcome <;> rfl
    | succ index =>
      have passes : s.Passes f := not_not.mp fun blocked => free 0 (Nat.succ_pos _) ⟨(f, s), rfl, blocked⟩
      have unstopped : s.stop? kind f = none := stop_passes.mpr passes
      rw [finalizeAll_unstopped unstopped, finalizeAll_unstopped ((stop_finalize same).1.trans unstopped)]
      exact ih fun earlier lower => free (earlier + 1) (Nat.succ_lt_succ lower)

theorem finalizeAll_behind {index : Nat}
    (stopped : ∃ earlier < index, ∃ field, (fs.zip ss)[earlier]? = some field ∧ ¬ field.2.Passes field.1) :
    (Slot.finalizeAll kind fs ss).1[index]? = ss[index]? := by
  induction fs generalizing ss index with
  | nil => rw [finalizeAll_short (.inl rfl)]
  | cons f fs ih =>
    cases ss with
    | nil => rw [finalizeAll_short (.inr rfl)]
    | cons s ss =>
      obtain ⟨earlier, lower, field, place, blocked⟩ := stopped
      obtain ⟨index, rfl⟩ := Nat.exists_eq_add_one_of_ne_zero (Nat.ne_zero_of_lt lower)
      cases stops : s.stop? kind f with
      | some e =>
        rw [finalizeAll_stopped stops]
        rfl
      | none =>
        rw [finalizeAll_unstopped stops]
        cases earlier with
        | zero =>
          cases place
          exact absurd (stop_passes.mp stops) blocked
        | succ earlier => exact ih ⟨earlier, Nat.lt_of_succ_lt_succ lower, field, place, blocked⟩

end Slot

namespace Node

variable {n m : Node}

-- Two assignments that fail with one error, or succeed with related nodes.
inductive Together (R : Node → Node → Prop) : Except NodeError Node → Except NodeError Node → Prop where
  | failed (e : NodeError) : Together R (.error e) (.error e)
  | stored {n m : Node} (related : R n m) : Together R (.ok n) (.ok m)

variable {R : Node → Node → Prop} {one other : Except NodeError Node}

theorem Together.errors (both : Together R one other) (e : NodeError) : other = .error e ↔ one = .error e := by
  cases both <;> simp

theorem Together.accepts (both : Together R one other) : (∃ m, other = .ok m) ↔ ∃ n, one = .ok n := by
  cases both <;> simp

theorem Together.related (both : Together R (.ok n) (.ok m)) : R n m := by
  cases both with
  | stored related => exact related

theorem set_together (schema : m.schema = n.schema) {name : String} {v : Value}
    (put : ∀ {index : Nat} {f s}, n.schema.field? name = some f → n.schema.fields[index]? = some f →
      f.assign n.kind v = .ok s → R (n.put index s) (m.put index s)) :
    Together R (n.set name v) (m.set name v) := by
  have kind : m.kind = n.kind := congrArg Schema.kind schema
  unfold set indexOf
  rw [schema, kind]
  cases found : n.schema.fieldIndex? name with
  | none => exact .failed _
  | some index =>
    obtain ⟨f, place, -⟩ := fieldIndex_field found
    change Together R (n.setAt index v) (m.setAt index v)
    unfold setAt
    rw [schema, kind, place]
    change Together R (f.assign n.kind v >>= fun s => pure (n.put index s))
      (f.assign n.kind v >>= fun s => pure (m.put index s))
    cases assigned : f.assign n.kind v with
    | error e => exact .failed e
    | ok s => exact .stored (put (by simp [Schema.field?, found, place]) place assigned)

theorem setNamed_together (Allowed : Field → Slot → Prop) {named : List (String × Value)}
    (schema : ∀ {n m}, R n m → m.schema = n.schema)
    (put : ∀ {n m} {index : Nat} {f s}, R n m → n.schema.fields[index]? = some f → Allowed f s →
      R (n.put index s) (m.put index s))
    (allowed : ∀ field ∈ named, ∀ f s, n.schema.field? field.1 = some f → f.assign n.kind field.2 = .ok s → Allowed f s)
    (related : R n m) : Together R (n.setNamed named) (m.setNamed named) := by
  induction named generalizing n m with
  | nil => exact .stored related
  | cons field rest ih =>
    obtain ⟨name, v⟩ := field
    rw [List.forall_mem_cons] at allowed
    have first : Together (fun n' m' => R n' m' ∧ n'.schema = n.schema) (n.set name v) (m.set name v) :=
      set_together (schema related) fun declared place assigned =>
        ⟨put related place (allowed.1 _ _ declared assigned), rfl⟩
    rw [setNamed, setNamed]
    generalize n.set name v = one, m.set name v = other at first
    cases first with
    | failed e => exact .failed e
    | @stored n' m' both =>
      obtain ⟨related, same⟩ := both
      have kind : n'.kind = n.kind := congrArg Schema.kind same
      exact ih (n := n') (m := m') (by rw [same, kind]; exact allowed.2) related

-- A node of which some fields have been completed, and one of which none has been behind what stops it.
def Ahead (n m : Node) : Prop := m.schema = n.schema ∧ Slot.AllAhead n.kind n.schema.fields n.slots m.slots

def Resumes (n m : Node) : Prop := m.schema = n.schema ∧ Slot.AllResume n.kind n.schema.fields n.slots m.slots

theorem resumes_finalize (n : Node) : n.Resumes n.finalize.1 := by
  rw [finalize_slots]
  exact ⟨rfl, Slot.finalizeAll_resume _ _⟩

theorem Resumes.ahead (resumes : n.Resumes m) : n.Ahead m := ⟨resumes.1, resumes.2.ahead⟩

theorem Resumes.finalize (resumes : n.Resumes m) : m.finalize = n.finalize := by
  obtain ⟨schema, slots⟩ := n
  obtain ⟨schema', slots'⟩ := m
  obtain ⟨rfl, resume⟩ := resumes
  have same : Slot.finalizeAll schema'.kind schema'.fields slots' = _ := resume.finalizeAll
  rw [Node.finalize, Node.finalize, same]
  rfl

-- The field at this position stops completion, where none before it does.
def StopsAt (n : Node) (index : Nat) : Prop := ∃ field, n.fields[index]? = some field ∧ ¬ field.2.Passes field.1

theorem Ahead.finalize (ahead : n.Ahead m) : m.finalize.2 = n.finalize.2 := by
  obtain ⟨schema, slots⟩ := n
  obtain ⟨schema', slots'⟩ := m
  obtain ⟨rfl, slots⟩ := ahead
  rw [finalize_outcome, finalize_outcome]
  simp only [Node.schema, Node.slots, Node.kind] at slots ⊢
  rw [slots.outcome]

theorem Ahead.stops (ahead : n.Ahead m) (index : Nat) : m.StopsAt index ↔ n.StopsAt index := by
  obtain ⟨schema, slots⟩ := n
  obtain ⟨schema', slots'⟩ := m
  obtain ⟨rfl, slots⟩ := ahead
  exact slots.passes index

theorem Ahead.reached (ahead : n.Ahead m) {index : Nat} (free : ∀ earlier < index, ¬ n.StopsAt earlier) :
    m.finalize.1.slots[index]? = n.finalize.1.slots[index]? := by
  obtain ⟨schema, slots⟩ := n
  obtain ⟨schema', slots'⟩ := m
  obtain ⟨rfl, slots⟩ := ahead
  exact slots.reached free

theorem finalize_behind {index : Nat} (stopped : ∃ earlier < index, n.StopsAt earlier) :
    n.finalize.1.slots[index]? = n.slots[index]? := by
  rw [finalize_slots]
  exact Slot.finalizeAll_behind stopped

theorem set_resumes {named : List (String × Value)}
    (passes : ∀ field ∈ named, ∀ f, n.schema.field? field.1 = some f → (Slot.value field.2).Passes f) :
    Together Resumes (n.setNamed named) (n.finalize.1.setNamed named) := by
  refine setNamed_together (fun f s => s.Passes f) And.left
    (fun resumes field passes => ⟨resumes.1, resumes.2.set field passes⟩) ?_ n.resumes_finalize
  intro field member f s declared assigned
  rcases Field.assign_exact.mp assigned with ⟨-, -, rfl⟩ | ⟨-, rfl⟩
  · exact ⟨nofun, nofun⟩
  · exact passes field member f declared

-- Completion that is called twice, and completion before and after fields are set: any values that the fields take,
-- or the same refusal. Up to the field at which the last call stops the two trees are the same, behind it each is as
-- that call found it.
theorem finalize_resumes (n : Node) :
    n.finalize.1.finalize = n.finalize ∧
    ∀ named,
      (∀ e, n.finalize.1.setNamed named = .error e ↔ n.setNamed named = .error e) ∧
      ((∃ k, n.finalize.1.setNamed named = .ok k) ↔ ∃ m, n.setNamed named = .ok m) ∧
      ∀ m k, n.setNamed named = .ok m → n.finalize.1.setNamed named = .ok k →
        k.finalize.2 = m.finalize.2 ∧
        ((∀ field ∈ named, ∀ f, n.schema.field? field.1 = some f → (Slot.value field.2).Passes f) →
          k.finalize = m.finalize) ∧
        ∀ index : Nat, (k.StopsAt index ↔ m.StopsAt index) ∧
          ((∀ earlier < index, ¬ m.StopsAt earlier) →
            k.finalize.1.slots[index]? = m.finalize.1.slots[index]?) ∧
          ((∃ earlier < index, m.StopsAt earlier) →
            k.finalize.1.slots[index]? = k.slots[index]? ∧ m.finalize.1.slots[index]? = m.slots[index]?) := by
  refine ⟨n.finalize_again, fun named => ?_⟩
  have both : Together Ahead (n.setNamed named) (n.finalize.1.setNamed named) :=
    setNamed_together (fun _ _ => True) And.left (fun ahead _ _ => ⟨ahead.1, ahead.2.set _ _⟩)
      (fun _ _ _ _ _ _ => trivial) n.resumes_finalize.ahead
  refine ⟨both.errors, both.accepts, fun m k stored storedAfter => ?_⟩
  rw [stored, storedAfter] at both
  have ahead : m.Ahead k := both.related
  refine ⟨ahead.finalize, fun passes => ?_, fun index => ⟨ahead.stops index, ahead.reached, fun stopped => ?_⟩⟩
  · have resumed := set_resumes passes
    rw [stored, storedAfter] at resumed
    exact resumed.related.finalize
  · obtain ⟨earlier, lower, stops⟩ := stopped
    exact ⟨finalize_behind ⟨earlier, lower, (ahead.stops earlier).mpr stops⟩, finalize_behind ⟨earlier, lower, stops⟩⟩

def untested : Node := .empty Core.assertion

def tested (test : Node) (msg : Slot) : Node := .mk Core.assertion [.value (.node test), msg]

-- With a test that is complete, the order of setting it and of completing comes to the same.
theorem untested_resumes : untested.finalize.2 = .error (.incomplete "Assert" ["test"]) ∧
    untested.finalize.1.finalize = untested.finalize ∧
    untested.setNamed [("test", .node (Lowered.load "x"))] = .ok (tested (Lowered.load "x") .unset) ∧
    untested.finalize.1.setNamed [("test", .node (Lowered.load "x"))] =
      .ok (tested (Lowered.load "x") .explicitNone) ∧
    (tested (Lowered.load "x") .explicitNone).finalize = (tested (Lowered.load "x") .unset).finalize := by
  obtain ⟨again, resumed⟩ := finalize_resumes untested
  obtain ⟨-, -, set⟩ := resumed [("test", .node (Lowered.load "x"))]
  obtain ⟨-, alike, -⟩ := set (tested (Lowered.load "x") .unset) (tested (Lowered.load "x") .explicitNone) rfl rfl
  refine ⟨rfl, again, rfl, rfl, alike ?_⟩
  intro field member f declared
  obtain rfl := List.mem_singleton.mp member
  obtain rfl : Core.one "test" "expr" = f := Option.some.inj declared
  exact Slot.stop_passes.mp (rfl : Slot.stop? "Assert" _ _ = none)

-- A name without its context, which an assertion takes as its test all the same.
def bareName : Node := .mk Core.name [.value (.str "x"), .unset]

-- Such a test stops completion in front of the message, of which the first call said that there is none.
theorem untested_unlike : untested.finalize.2 = .error (.incomplete "Assert" ["test"]) ∧
    untested.set "test" (.node bareName) = .ok (tested bareName .unset) ∧
    untested.finalize.1.set "test" (.node bareName) = .ok (tested bareName .explicitNone) ∧
    (tested bareName .unset).finalize = (tested bareName .unset, .error (.incomplete "Name" ["ctx"])) ∧
    (tested bareName .explicitNone).finalize =
      (tested bareName .explicitNone, .error (.incomplete "Name" ["ctx"])) ∧
    tested bareName .explicitNone ≠ tested bareName .unset :=
  ⟨rfl, rfl, rfl, rfl, rfl, nofun⟩

end Node

end TreeLowering
