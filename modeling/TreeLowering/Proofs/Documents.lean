import TreeLowering.Proofs.Complaints
import TreeLowering.Native.Decode
import Mathlib.Data.List.Nodup

namespace TreeLowering

theorem forall₂_partner {α β : Type} {R : α → β → Prop} {as : List α} {bs : List β}
    (related : List.Forall₂ R as bs) {b : β} (member : b ∈ bs) : ∃ a ∈ as, R a b := by
  induction related with
  | nil => cases member
  | cons first rest ih =>
    rcases List.mem_cons.mp member with rfl | later
    · exact ⟨_, List.mem_cons_self .., first⟩
    · obtain ⟨a, inside, same⟩ := ih later
      exact ⟨a, List.mem_cons_of_mem _ inside, same⟩

namespace Keyed

variable {α : Type} {key : String} {value : α} {pairs : List (String × α)}

theorem insert_distinct (distinct : (pairs.map (·.1)).Nodup) : ((insert key value pairs).map (·.1)).Nodup := by
  induction pairs with
  | nil => exact List.nodup_singleton _
  | cons first rest ih =>
    obtain ⟨k, v⟩ := first
    rw [List.map_cons, List.nodup_cons] at distinct
    unfold insert
    split
    · next same =>
      rw [List.map_cons, List.nodup_cons, ← same]
      exact distinct
    · next differs =>
      rw [List.map_cons, List.nodup_cons]
      refine ⟨fun repeated => ?_, ih distinct.2⟩
      obtain ⟨p, member, same⟩ := List.mem_map.mp repeated
      rcases mem_insert member with new | old
      · rw [new] at same
        exact differs same.symm
      · exact distinct.1 (List.mem_map.mpr ⟨p, old, same⟩)

end Keyed

namespace Json

section Building

variable {α : Type} {P : α → Prop} {build : Builder α} {limit : Option Nat}

-- Every step that makes a value makes one with the property, from values that have it.
structure Builder.Keeps (build : Builder α) (P : α → Prop) : Prop where
  null : P build.null
  bool : ∀ b, P (build.bool b)
  number : ∀ text, P (build.number text)
  string : ∀ s v, build.string s = some v → P v
  array : ∀ items, (∀ v ∈ items, P v) → P (build.array items)
  object : ∀ members v, (∀ m ∈ members, P m.2) → build.object members = some v → P v

def Frame.All (P : α → Prop) : Frame α → Prop
  | .items held => ∀ v ∈ held, P v
  | .member held _ => ∀ m ∈ held, P m.2

def State.All (P : α → Prop) : State α → Prop
  | .value stack | .firstItem stack | .firstKey stack => ∀ frame ∈ stack, frame.All P
  | .moreItems held stack => (∀ v ∈ held, P v) ∧ ∀ frame ∈ stack, frame.All P
  | .nextKey held stack | .colon held _ stack | .moreMembers held stack =>
    (∀ m ∈ held, P m.2) ∧ ∀ frame ∈ stack, frame.All P
  | .done v => P v

theorem deliver_all {v : α} {stack : List (Frame α)} (made : P v) (below : ∀ frame ∈ stack, frame.All P) :
    (State.deliver v stack).All P := by
  cases stack with
  | nil => exact made
  | cons frame rest =>
    rw [List.forall_mem_cons] at below
    cases frame with
    | items held => exact ⟨List.forall_mem_cons.mpr ⟨made, below.1⟩, below.2⟩
    | member held key => exact ⟨List.forall_mem_cons.mpr ⟨made, below.1⟩, below.2⟩

theorem begin_all (keeps : build.Keeps P) {stack : List (Frame α)} (below : ∀ frame ∈ stack, frame.All P)
    {t : Token} {next : State α} (begun : State.begin? build limit stack t = some next) : next.All P := by
  cases t <;> simp only [State.begin?] at begun
  case null =>
    cases begun
    exact deliver_all keeps.null below
  case bool b =>
    cases begun
    exact deliver_all (keeps.bool b) below
  case number text =>
    cases begun
    exact deliver_all (keeps.number text) below
  case string s =>
    obtain ⟨v, made, rfl⟩ := Option.map_eq_some_iff.mp begun
    exact deliver_all (keeps.string s v made) below
  case openArray =>
    split at begun <;> cases begun
    exact below
  case openObject =>
    split at begun <;> cases begun
    exact below
  all_goals cases begun

theorem close_all (keeps : build.Keeps P) {held : List (Option String × α)} {stack : List (Frame α)}
    (members : ∀ m ∈ held, P m.2) (below : ∀ frame ∈ stack, frame.All P) {next : State α}
    (closed : State.close? build held stack = some next) : next.All P := by
  obtain ⟨v, made, rfl⟩ := Option.map_eq_some_iff.mp closed
  exact deliver_all (keeps.object _ v (fun m member => members m (List.mem_reverse.mp member)) made) below

theorem step_all (keeps : build.Keeps P) {s next : State α} {t : Token} (all : s.All P)
    (stepped : State.step? build limit s t = some next) : next.All P := by
  unfold State.step? at stepped
  split at stepped
  · exact begin_all keeps all stepped
  · cases stepped
    exact deliver_all (keeps.array [] (List.forall_mem_nil _)) all
  · have empty : Frame.All P (.items []) := List.forall_mem_nil _
    exact begin_all keeps (List.forall_mem_cons.mpr ⟨empty, all⟩) stepped
  · cases stepped
    exact List.forall_mem_cons.mpr all
  · cases stepped
    exact deliver_all (keeps.array _ fun v member => all.1 v (List.mem_reverse.mp member)) all.2
  · exact close_all keeps (List.forall_mem_nil _) all stepped
  · cases stepped
    exact ⟨List.forall_mem_nil _, all⟩
  · cases stepped
    exact all
  · cases stepped
    exact List.forall_mem_cons.mpr all
  · cases stepped
    exact all
  · exact close_all keeps all.1 all.2 stepped
  · cases stepped

theorem run_all (keeps : build.Keeps P) {tokens : List Token} {s last : State α} (all : s.All P)
    (ran : tokens.foldlM (State.step? build limit) s = some last) : last.All P := by
  induction tokens generalizing s with
  | nil =>
    cases ran
    exact all
  | cons t rest ih =>
    rw [List.foldlM_cons] at ran
    obtain ⟨next, stepped, others⟩ := Option.bind_eq_some_iff.mp ran
    exact ih (step_all keeps all stepped) others

theorem build_all (keeps : build.Keeps P) {text : String} {v : α} (built : build? build limit text = some v) :
    P v := by
  unfold build? at built
  obtain ⟨tokens, -, ran⟩ := Option.bind_eq_some_iff.mp built
  obtain ⟨last, ran, ended⟩ := Option.bind_eq_some_iff.mp ran
  have all := run_all keeps (s := .value []) (List.forall_mem_nil _) ran
  cases last <;> cases ended
  exact all

end Building

mutual
-- The objects in a value by their members, outer ones first.
def objects : Json → List (List (String × Json))
  | .array items => objectsItems items
  | .object members => members :: objectsMembers members
  | _ => []
termination_by structural j => j

def objectsItems : List Json → List (List (String × Json))
  | [] => []
  | j :: rest => j.objects ++ objectsItems rest
termination_by structural js => js

def objectsMembers : List (String × Json) → List (List (String × Json))
  | [] => []
  | (_, j) :: rest => j.objects ++ objectsMembers rest
termination_by structural ms => ms
end

variable {found : List (String × Json)}

theorem mem_objectsItems {items : List Json} :
    found ∈ objectsItems items ↔ ∃ j ∈ items, found ∈ j.objects := by
  induction items with
  | nil => simp [objectsItems]
  | cons j rest ih => simp [objectsItems, ih]

theorem mem_objectsMembers {members : List (String × Json)} :
    found ∈ objectsMembers members ↔ ∃ m ∈ members, found ∈ m.2.objects := by
  induction members with
  | nil => simp [objectsMembers]
  | cons m rest ih =>
    obtain ⟨key, j⟩ := m
    simp [objectsMembers, ih]

theorem objects_within {members : List (String × Json)} (inner : found ∈ (Json.object members).objects) :
    ∀ j : Json, members ∈ j.objects → found ∈ j.objects
  | .array items, outer => by
    obtain ⟨i, inside, there⟩ := mem_objectsItems.mp outer
    have smaller := List.sizeOf_lt_of_mem inside
    exact mem_objectsItems.mpr ⟨i, inside, objects_within inner i there⟩
  | .object own, outer => by
    rcases List.mem_cons.mp outer with rfl | deeper
    · exact inner
    · obtain ⟨⟨key, i⟩, inside, there⟩ := mem_objectsMembers.mp deeper
      have smaller : sizeOf i < sizeOf own := by
        have member := List.sizeOf_lt_of_mem inside
        rw [Prod.mk.sizeOf_spec] at member
        omega
      exact List.mem_cons_of_mem _ (mem_objectsMembers.mpr ⟨_, inside, objects_within inner i there⟩)
  | .null, outer | .bool _, outer | .number _, outer | .string _, outer => by cases outer
termination_by j => sizeOf j

def Distinct (j : Json) : Prop := ∀ members ∈ j.objects, (members.map (·.1)).Nodup

-- A repeated key is put in the place of the first.
theorem inserted_distinct {P : Json → Prop} {members : List (String × Json)} (held : List (String × Json))
    (distinct : (held.map (·.1)).Nodup) (old : ∀ m ∈ held, P m.2) (new : ∀ m ∈ members, P m.2) :
    ((members.foldl (fun held m => Keyed.insert m.1 m.2 held) held).map (·.1)).Nodup ∧
      ∀ m ∈ members.foldl (fun held m => Keyed.insert m.1 m.2 held) held, P m.2 := by
  induction members generalizing held with
  | nil => exact ⟨distinct, old⟩
  | cons m rest ih =>
    rw [List.forall_mem_cons] at new
    refine ih _ (Keyed.insert_distinct distinct) (fun p member => ?_) new.2
    rcases Keyed.mem_insert member with rfl | earlier
    · exact new.1
    · exact old p earlier

theorem wrapped_number {members : List (String × Json)} {j : Json} (wrapped : wrapped? members = some j) :
    ∃ text, j = .number text := by
  unfold wrapped? at wrapped
  split at wrapped
  · obtain ⟨cs, -, rfl⟩ := Option.map_eq_some_iff.mp wrapped
    exact ⟨_, rfl⟩
  · cases wrapped

theorem ofMembers_distinct {members : List (String × Json)} {j : Json} (below : ∀ m ∈ members, m.2.Distinct)
    (made : ofMembers? members = some j) : j.Distinct := by
  unfold ofMembers? at made
  split at made
  · obtain ⟨text, rfl⟩ := wrapped_number made
    exact nofun
  · cases made
    obtain ⟨distinct, each⟩ := inserted_distinct [] List.nodup_nil (List.forall_mem_nil _) below
    intro found member
    rcases List.mem_cons.mp member with rfl | deeper
    · exact distinct
    · obtain ⟨m, inside, there⟩ := mem_objectsMembers.mp deeper
      exact each m inside found there

theorem keyed_from {members : List (Option String × Json)} {keyed : List (String × Json)}
    (given : (members.mapM fun m => m.1.map fun key => (key, m.2)) = some keyed) :
    ∀ m ∈ keyed, ∃ n ∈ members, n.2 = m.2 := by
  induction members generalizing keyed with
  | nil =>
    cases given
    exact List.forall_mem_nil _
  | cons first rest ih =>
    rw [List.mapM_cons] at given
    obtain ⟨m, named, others⟩ := Option.bind_eq_some_iff.mp given
    obtain ⟨key, -, rfl⟩ := Option.map_eq_some_iff.mp named
    obtain ⟨tail, later, made⟩ := Option.bind_eq_some_iff.mp others
    cases made
    intro m member
    rcases List.mem_cons.mp member with rfl | inside
    · exact ⟨first, List.mem_cons_self .., rfl⟩
    · obtain ⟨n, there, same⟩ := ih later m inside
      exact ⟨n, List.mem_cons_of_mem _ there, same⟩

theorem values_keep : values.Keeps Distinct where
  null := nofun
  bool := fun _ => nofun
  number := fun _ => nofun
  string := fun s v made => by
    obtain ⟨text, -, rfl⟩ := Option.map_eq_some_iff.mp made
    exact nofun
  array := fun items each found member => by
    obtain ⟨j, inside, there⟩ := mem_objectsItems.mp member
    exact each j inside found there
  object := fun members v each made => by
    obtain ⟨keyed, given, built⟩ := Option.bind_eq_some_iff.mp made
    refine ofMembers_distinct (fun m member => ?_) built
    obtain ⟨n, inside, same⟩ := keyed_from given m member
    exact same ▸ each n inside

theorem read_distinct {text : String} {j : Json} (read : read? text = some j) : j.Distinct :=
  build_all values_keep read

end Json

namespace Native

variable {members : List (String × Json)} {fields : List (String × Value)}

theorem decodeItems_items {js : List Json} {items : List Value} (decoded : decodeItems js = .ok items) :
    List.Forall₂ (fun j v => decodeValue j = .ok v) js items := by
  induction js generalizing items with
  | nil =>
    cases decoded
    exact .nil
  | cons j rest ih =>
    obtain ⟨v, first, ran⟩ := bind_ok.mp decoded
    obtain ⟨vs, others, same⟩ := bind_ok.mp ran
    cases same
    exact .cons first (ih others)

theorem decodeFields_members (decoded : decodeFields members = .ok fields) :
    List.Forall₂ (fun m f => m.1 = f.1 ∧ decodeValue m.2 = .ok f.2)
      (members.filter fun m => !isReserved m.1) fields := by
  induction members generalizing fields with
  | nil =>
    cases decoded
    exact .nil
  | cons m rest ih =>
    obtain ⟨key, j⟩ := m
    rw [decodeFields] at decoded
    by_cases reserved : isReserved key = true
    · rw [if_pos reserved] at decoded
      rw [List.filter_cons_of_neg (by simp [reserved])]
      exact ih decoded
    · rw [if_neg reserved] at decoded
      rw [List.filter_cons_of_pos (by simpa using reserved)]
      obtain ⟨v, first, ran⟩ := bind_ok.mp decoded
      obtain ⟨fs, others, same⟩ := bind_ok.mp ran
      cases same
      exact .cons ⟨rfl, first⟩ (ih others)

theorem decode_shape {j : Json} {v : Value} (decoded : decodeValue j = .ok v) :
    (∀ n, v = .node n → ∃ members, j = .object members ∧ decodeFields members = .ok n.fields) ∧
      ∀ items, v = .list items → ∃ js, j = .array js ∧ decodeItems js = .ok items := by
  cases j with
  | object members =>
    rw [decodeValue] at decoded
    split at decoded
    · obtain ⟨fields, read, same⟩ := bind_ok.mp decoded
      cases same
      refine ⟨fun n same => ?_, nofun⟩
      cases same
      exact ⟨members, rfl, read⟩
    · cases decoded
    · split at decoded
      · unfold decodeComplex at decoded
        split at decoded
        · split at decoded <;> cases decoded
          exact ⟨nofun, nofun⟩
        · cases decoded
      · unfold decodeBytes at decoded
        split at decoded
        · split at decoded <;> cases decoded
          exact ⟨nofun, nofun⟩
        · cases decoded
      · cases decoded
        exact ⟨nofun, nofun⟩
  | array js =>
    obtain ⟨vs, read, same⟩ := bind_ok.mp decoded
    cases same
    refine ⟨nofun, fun items same => ?_⟩
    cases same
    exact ⟨js, rfl, read⟩
  | number text =>
    cases decoded
    unfold ofNumeral
    split
    · exact ⟨nofun, nofun⟩
    · split
      · exact ⟨nofun, nofun⟩
      · split <;> exact ⟨nofun, nofun⟩
  | _ =>
    cases decoded
    exact ⟨nofun, nofun⟩

theorem held_object {v : Value} {n : Node} (held : v.Holds n) {j : Json} (decoded : decodeValue j = .ok v) :
    ∃ members ∈ j.objects, decodeValue (.object members) = .ok (.node n) := by
  induction held generalizing j with
  | node n =>
    obtain ⟨members, rfl, -⟩ := (decode_shape decoded).1 n rfl
    exact ⟨members, List.mem_cons_self .., decoded⟩
  | item member held ih =>
    obtain ⟨js, rfl, read⟩ := (decode_shape decoded).2 _ rfl
    obtain ⟨i, inside, same⟩ := forall₂_partner (decodeItems_items read) member
    obtain ⟨members, there, object⟩ := ih same
    exact ⟨members, Json.mem_objectsItems.mpr ⟨i, inside, there⟩, object⟩

theorem field_member (decoded : decodeFields members = .ok fields) {f : String × Value} (member : f ∈ fields) :
    ∃ j, (f.1, j) ∈ members ∧ decodeValue j = .ok f.2 := by
  obtain ⟨⟨key, j⟩, inside, same, read⟩ := forall₂_partner (decodeFields_members decoded) member
  exact ⟨j, same ▸ (List.mem_filter.mp inside).1, read⟩

theorem member_field (decoded : decodeFields members = .ok fields) {key : String} {j : Json}
    (member : (key, j) ∈ members) (plain : isReserved key = false) :
    ∃ v, decodeValue j = .ok v ∧ (key, v) ∈ fields := by
  have inside : (key, j) ∈ members.filter fun m => !isReserved m.1 :=
    List.mem_filter.mpr ⟨member, by rw [plain]; rfl⟩
  obtain ⟨⟨name, v⟩, given, same, read⟩ := forall₂_partner (decodeFields_members decoded).flip inside
  cases same
  exact ⟨v, read, given⟩

theorem fields_keys (decoded : decodeFields members = .ok fields) :
    fields.map (·.1) = (members.map (·.1)).filter fun key => !isReserved key := by
  have same : (members.filter fun m => !isReserved m.1).map (·.1) = fields.map (·.1) :=
    List.forall₂_eq_eq_eq ▸ List.forall₂_map_left_iff.mpr (List.forall₂_map_right_iff.mpr
      ((decodeFields_members decoded).imp fun m f both => both.1))
  rw [← same, List.filter_map]
  rfl

theorem fields_distinct (decoded : decodeFields members = .ok fields) (keys : (members.map (·.1)).Nodup) :
    (fields.map (·.1)).Nodup := by
  rw [fields_keys decoded]
  exact keys.filter _

end Native

namespace Translator

open Native (decodeValue decodeFields ofJson)

theorem field_object {outer m : Native.Node} {f : String × Native.Value} {j : Json}
    (decoded : decodeValue j = .ok (.node outer)) (field : f ∈ outer.fields) (held : f.2.Holds m) :
    ∃ members ∈ j.objects, decodeValue (.object members) = .ok (.node m) := by
  obtain ⟨members, rfl, read⟩ := (Native.decode_shape decoded).1 outer rfl
  obtain ⟨i, member, same⟩ := Native.field_member read field
  obtain ⟨found, there, object⟩ := Native.held_object held same
  exact ⟨found, List.mem_cons_of_mem _ (Json.mem_objectsMembers.mpr ⟨_, member, there⟩), object⟩

-- Every node on the way through a tree stands in an object of its document.
theorem visits_object {root n : Native.Node} (visited : Visits root n) {j : Json}
    (decoded : decodeValue j = .ok (.node root)) :
    ∃ members ∈ j.objects, decodeValue (.object members) = .ok (.node n) := by
  induction visited generalizing j with
  | self n => exact Native.held_object (.node n) decoded
  | part usual field held rest ih =>
    obtain ⟨outer, there, object⟩ := field_object decoded field held
    obtain ⟨members, inside, read⟩ := ih object
    exact ⟨members, Json.objects_within inside j there, read⟩
  | inside wraps rest ih =>
    obtain ⟨outer, there, object⟩ := field_object decoded (wrapped_field wraps) (.node _)
    obtain ⟨members, inside, read⟩ := ih object
    exact ⟨members, Json.objects_within inside j there, read⟩

theorem ofJson_root {j : Json} {root : Native.Node} (decoded : ofJson j = .ok root) :
    decodeValue j = .ok (.node root) := by
  unfold ofJson at decoded
  obtain ⟨v, read, same⟩ := bind_ok.mp decoded
  split at same <;> cases same
  unfold ofJson.decodeRoot at read
  split at read
  · split at read
    · exact read
    · cases read
  · cases read

theorem visits_distinct {root n : Native.Node} {j : Json} (distinct : j.Distinct) (decoded : ofJson j = .ok root)
    (visited : Visits root n) : (n.fields.map (·.1)).Nodup := by
  obtain ⟨members, inside, object⟩ := visits_object visited (ofJson_root decoded)
  obtain ⟨same, shape, read⟩ := (Native.decode_shape object).1 n rfl
  cases shape
  exact Native.fields_distinct read (distinct members inside)

end Translator

end TreeLowering
