import TreeLowering.Proofs.Assignment
import TreeLowering.Proofs.Postorder
import TreeLowering.Proofs.Walks

namespace TreeLowering

section Children

variable {σ ε : Type} [OfNodeError ε] (enter : Node → Walk σ ε (Visit σ ε))

theorem Value.descendAll_visits (items : List Value) :
    Value.descendAll enter items = Value.transformAll (fun n => n.transform enter) items := by
  induction items with
  | nil => rfl
  | cons v rest ih => cases v <;> simp [Value.descendAll, Value.transformAll, ih]

theorem Slot.descendAll_visits (kind : String) (fs : List Field) (ss : List Slot) :
    Slot.descendAll enter kind fs ss = Slot.transformAll (fun n => n.transform enter) kind fs ss := by
  induction fs generalizing ss with
  | nil => cases ss <;> rfl
  | cons f fs ih =>
    cases ss with
    | nil => rfl
    | cons s ss =>
      cases s with
      | value v =>
        cases v <;> simp [Slot.descendAll, Slot.transformAll, Slot.transform, Value.descend, ih,
          Value.descendAll_visits]
      | _ => simp [Slot.descendAll, Slot.transformAll, Slot.transform, ih]

theorem Node.transform_visits (n : Node) :
    n.transform enter = (do
      match ← enter n with
      | .replace r => return r
      | .descend leave => do
        let settled ← n.transformChildren fun child => child.transform enter
        leave settled) := by
  cases n with
  | mk schema slots =>
    simp only [Node.transform, Slot.descendAll_visits, Node.transformChildren, bind_assoc, pure_bind]
    rfl

end Children

-- A node that a transformation leaves: as the walk came upon it, and with its children settled.
structure Leaving where
  entered : Node
  settled : Node

namespace Walk

variable {σ ε α : Type}

def beside (c : Walk σ ε α) : Walk (σ × List Leaving) ε α := fun s =>
  let (outcome, after) := c.run s.1
  (outcome, (after, s.2))

def record (leaving : Leaving) : Walk (σ × List Leaving) ε Unit := fun s => (.ok (), (s.1, s.2 ++ [leaving]))

theorem run_beside (c : Walk σ ε α) (s : σ) (before : List Leaving) :
    c.beside.run (s, before) = ((c.run s).1, ((c.run s).2, before)) := rfl

theorem run_record (leaving : Leaving) (s : σ) (before : List Leaving) :
    (record leaving : Walk (σ × List Leaving) ε Unit).run (s, before) = (.ok (), (s, before ++ [leaving])) := rfl

end Walk

-- A visit that records the node as soon as its children are settled, and then goes on as before.
def Visit.recorded {σ ε : Type} (entered : Node) : Visit σ ε → Visit (σ × List Leaving) ε
  | .replace r => .replace r
  | .descend leave => .descend fun settled => do
    Walk.record ⟨entered, settled⟩
    (leave settled).beside

def recorded {σ ε : Type} (enter : Node → Walk σ ε (Visit σ ε)) (n : Node) :
    Walk (σ × List Leaving) ε (Visit (σ × List Leaving) ε) := do
  let visit ← (enter n).beside
  return visit.recorded n

theorem recorded_run {σ ε : Type} {enter : Node → Walk σ ε (Visit σ ε)} {n : Node} {s t : σ}
    {outcome : Except ε (Visit σ ε)} (entered : (enter n).run s = (outcome, t)) (before : List Leaving) :
    (recorded enter n).run (s, before) = (outcome.map (Visit.recorded n), (t, before)) := by
  rw [recorded, Walk.run_bind, Walk.run_beside, entered]
  cases outcome <;> rfl

-- From every state and record the recorded computation ends as the plain one does, and adds to the record
-- what is `Good`. Where there is a result, the account holds of the states before and after and of what was
-- added.
def Records {σ ε α : Type} (Good : Leaving → Prop) (account : σ → List Leaving → σ → Prop)
    (recording : Walk (σ × List Leaving) ε α) (plain : Walk σ ε α) : Prop :=
  ∀ s before, ∃ added,
    recording.run (s, before) = ((plain.run s).1, ((plain.run s).2, before ++ added)) ∧
      (∀ leaving ∈ added, Good leaving) ∧
      ∀ a after, plain.run s = (.ok a, after) → account s added after

-- An account of walks: what holds of the nodes that were to be settled, the state before, the record and the
-- state after. Going on adds to it, and it has a step for each way in which a node is visited.
structure Accounts {σ ε : Type} (enter : Node → Walk σ ε (Visit σ ε))
    (account : List Node → σ → List Leaving → σ → Prop) : Prop where
  nothing (s : σ) : account [] s [] s
  append {ns ms : List Node} {s t u : σ} {first second : List Leaving} :
    account ns s first t → account ms t second u → account (ns ++ ms) s (first ++ second) u
  replaced {n : Node} {s t : σ} {r : Replacement} :
    (enter n).run s = (.ok (.replace r), t) → account n.postorder s [] t
  left {n settled : Node} {s t u v : σ} {leave : Node → Walk σ ε Replacement} {r : Replacement}
    {below : List Leaving} : (enter n).run s = (.ok (.descend leave), t) → account n.beneath t below u →
      (leave settled).run u = (.ok r, v) → account n.postorder s (below ++ [⟨n, settled⟩]) v

namespace Records

variable {σ ε α β : Type} {Good : Leaving → Prop} {account : List Node → σ → List Leaving → σ → Prop}
  {ns ms : List Node}

theorem pure (nothing : ∀ s, account [] s [] s) (a : α) :
    Records (ε := ε) Good (account []) (Pure.pure a) (Pure.pure a) := by
  intro s before
  refine ⟨[], by simp; rfl, by simp, fun b after ran => ?_⟩
  cases ran
  exact nothing s

theorem ofAssign [OfNodeError ε] (nothing : ∀ s, account [] s [] s) (outcome : Except NodeError α) :
    Records (ε := ε) Good (account []) (Walk.ofAssign outcome) (Walk.ofAssign outcome) := by
  cases outcome with
  | ok a => exact pure nothing a
  | error e => exact fun s before => ⟨[], by simp; rfl, by simp, fun b after ran => by cases ran⟩

theorem mono {Good' : Leaving → Prop} {recording : Walk (σ × List Leaving) ε α} {plain : Walk σ ε α}
    (records : Records Good (account ns) recording plain) (weaker : ∀ l, Good l → Good' l) :
    Records Good' (account ns) recording plain := by
  intro s before
  obtain ⟨added, ran, good, accounted⟩ := records s before
  exact ⟨added, ran, fun l inside => weaker l (good l inside), accounted⟩

theorem bind {recording : Walk (σ × List Leaving) ε α} {plain : Walk σ ε α}
    {recordingNext : α → Walk (σ × List Leaving) ε β} {plainNext : α → Walk σ ε β}
    (append : ∀ {s t u first second}, account ns s first t → account ms t second u →
      account (ns ++ ms) s (first ++ second) u)
    (first : Records Good (account ns) recording plain)
    (rest : ∀ a, Records Good (account ms) (recordingNext a) (plainNext a)) :
    Records Good (account (ns ++ ms)) (recording >>= recordingNext) (plain >>= plainNext) := by
  intro s before
  obtain ⟨added, ran, good, accounted⟩ := first s before
  cases done : plain.run s with
  | mk outcome t =>
    rw [done] at ran
    cases outcome with
    | error e =>
      refine ⟨added, by rw [Walk.run_error ran, Walk.run_error done], good, fun b after ended => ?_⟩
      rw [Walk.run_error done] at ended
      cases ended
    | ok a =>
      obtain ⟨more, ranOn, goodOn, accountedOn⟩ := rest a t (before ++ added)
      refine ⟨added ++ more, ?_, List.forall_mem_append.mpr ⟨good, goodOn⟩, fun b after ended => ?_⟩
      · rw [Walk.run_ok ran, Walk.run_ok done, ranOn, List.append_assoc]
      · rw [Walk.run_ok done] at ended
        exact append (accounted a t done) (accountedOn b after ended)

end Records

section Tree

variable {σ ε : Type} {enter : Node → Walk σ ε (Visit σ ε)} {Good : Leaving → Prop}
  {account : List Node → σ → List Leaving → σ → Prop} (accounts : Accounts enter account)
  {recording : Node → Walk (σ × List Leaving) ε Replacement} {plain : Node → Walk σ ε Replacement}
include accounts

theorem Records.andThen {α β : Type} {ns : List Node} {first : Walk (σ × List Leaving) ε α} {c : Walk σ ε α}
    {next : α → Walk (σ × List Leaving) ε β} {plainNext : α → Walk σ ε β}
    (records : Records Good (account ns) first c)
    (rest : ∀ a, Records Good (account []) (next a) (plainNext a)) :
    Records Good (account ns) (first >>= next) (c >>= plainNext) := by
  have both := records.bind accounts.append rest
  rwa [List.append_nil] at both

theorem Value.transformAll_records {items : List Value}
    (below : ∀ n, .node n ∈ items → Records Good (account n.postorder) (recording n) (plain n)) :
    Records Good (account (Value.postorderAll items)) (Value.transformAll recording items)
      (Value.transformAll plain items) := by
  induction items with
  | nil => exact .pure accounts.nothing _
  | cons v rest ih =>
    have others := ih fun n inside => below n (List.mem_cons_of_mem _ inside)
    cases v with
    | node n =>
      exact (below n (List.mem_cons_self ..)).bind accounts.append fun r =>
        others.andThen accounts fun after => .pure accounts.nothing _
    | _ => exact others.andThen accounts fun after => .pure accounts.nothing _

variable [OfNodeError ε]

theorem Slot.transform_records {s : Slot} (kind : String) (f : Field)
    (below : ∀ n ∈ s.children, Records Good (account n.postorder) (recording n) (plain n)) :
    Records Good (account s.postorder) (s.transform recording kind f) (s.transform plain kind f) := by
  cases s with
  | value v =>
    have items : ∀ {items}, v.items? = some items →
        Records Good (account (Value.postorderAll items)) (Value.transformAll recording items)
          (Value.transformAll plain items) := fun found =>
      Value.transformAll_records accounts fun n inside =>
        below n (Value.mem_children.mpr (.inr ⟨_, found, inside⟩))
    cases v with
    | node n =>
      exact (below n (List.mem_singleton_self n)).andThen accounts fun r => .ofAssign accounts.nothing _
    | list | tuple => exact (items rfl).andThen accounts fun after => .ofAssign accounts.nothing _
    | _ => exact .pure accounts.nothing _
  | _ => exact .pure accounts.nothing _

theorem Slot.transformAll_records (kind : String) {fs : List Field} {ss : List Slot}
    (sized : ss.length = fs.length)
    (below : ∀ s ∈ ss, ∀ n ∈ s.children, Records Good (account n.postorder) (recording n) (plain n)) :
    Records Good (account (Slot.postorderAll ss)) (Slot.transformAll recording kind fs ss)
      (Slot.transformAll plain kind fs ss) := by
  induction fs generalizing ss with
  | nil =>
    cases List.length_eq_zero_iff.mp sized
    exact .pure accounts.nothing _
  | cons f fs ih =>
    cases ss with
    | nil => cases sized
    | cons s ss =>
      rw [List.forall_mem_cons] at below
      exact (Slot.transform_records accounts kind f below.1).bind accounts.append fun first =>
        (ih (by simpa using sized) below.2).andThen accounts fun rest => .pure accounts.nothing _

theorem Node.transformChildren_records {n : Node} (sized : n.Sized)
    (below : ∀ child ∈ n.children, Records Good (account child.postorder) (recording child) (plain child)) :
    Records Good (account n.beneath) (n.transformChildren recording) (n.transformChildren plain) :=
  (Slot.transformAll_records accounts n.kind sized fun s slot child inside =>
    below child (Node.mem_children.mpr ⟨s, slot, inside⟩)).andThen accounts fun _ =>
      .pure accounts.nothing _

end Tree

-- A node of a tree that was left, with what going through its children gave.
structure Leaving.Of {σ ε : Type} [OfNodeError ε] (enter : Node → Walk σ ε (Visit σ ε)) (root : Node)
    (l : Leaving) : Prop where
  met : l.entered ∈ root.visited
  settles : ∃ s t, (l.entered.transformChildren fun child => child.transform enter).run s = (.ok l.settled, t)

theorem Leaving.Of.above {σ ε : Type} [OfNodeError ε] {enter : Node → Walk σ ε (Visit σ ε)}
    {root child : Node} {l : Leaving} (ofChild : l.Of enter child) (inside : child ∈ root.children) :
    l.Of enter root :=
  ⟨Node.mem_visited.mpr (.inr ⟨child, inside, ofChild.met⟩), ofChild.settles⟩

-- The induction over the tree: a node that is replaced as it stands leaves nothing on record, and one whose
-- children are settled stands on record behind everything below it.
theorem Node.transform_records {σ ε : Type} [OfNodeError ε] {enter : Node → Walk σ ε (Visit σ ε)}
    {account : List Node → σ → List Leaving → σ → Prop} (accounts : Accounts enter account) {n : Node} :
    (∀ m ∈ n.visited, m.Sized) →
      Records (Leaving.Of enter n) (account n.postorder) (n.transform (recorded enter)) (n.transform enter) := by
  induction n using Node.children_induct with
  | step n ih =>
    intro sized s before
    have children := Node.transformChildren_records accounts (sized n n.self_visited) fun child inside =>
      (ih child inside fun m met => sized m (Node.mem_visited.mpr (.inr ⟨child, inside, met⟩))).mono
        fun l ofChild => ofChild.above inside
    rw [Node.transform_visits, Node.transform_visits]
    cases entered : (enter n).run s with
    | mk outcome t =>
      have visits := recorded_run entered before
      cases outcome with
      | error e =>
        rw [Walk.run_error entered, Walk.run_error visits]
        exact ⟨[], by simp, by simp, fun b after ended => by cases ended⟩
      | ok visit =>
        rw [Walk.run_ok entered, Walk.run_ok visits]
        cases visit with
        | replace r =>
          refine ⟨[], by simp [Visit.recorded]; rfl, by simp, fun b after ended => ?_⟩
          cases ended
          exact accounts.replaced entered
        | descend leave =>
          obtain ⟨below, ran, good, accounted⟩ := children t before
          simp only [Visit.recorded]
          cases settles : (n.transformChildren fun child => child.transform enter).run t with
          | mk outcome u =>
            rw [settles] at ran
            cases outcome with
            | error e =>
              rw [Walk.run_error ran, Walk.run_error settles]
              exact ⟨below, rfl, good, fun b after ended => by cases ended⟩
            | ok settled =>
              rw [Walk.run_ok ran, Walk.run_ok settles]
              refine ⟨below ++ [⟨n, settled⟩], ?_, ?_, fun r v ended => ?_⟩
              · rw [Walk.run_ok (Walk.run_record ..), Walk.run_beside, List.append_assoc]
              · have last : Leaving.Of enter n ⟨n, settled⟩ := ⟨n.self_visited, t, u, settles⟩
                exact List.forall_mem_append.mpr ⟨good, List.forall_mem_singleton.mpr last⟩
              · exact accounts.left entered (accounted settled u settles) ended

end TreeLowering
