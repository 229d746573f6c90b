import Mathlib.Data.List.Induction
import Mathlib.Data.List.Pairwise
import TreeLowering.Proofs.Inheritance

namespace TreeLowering

-- What holds of every element and those before it holds so of a longer list when it holds of the last one too.
theorem splits_snoc {α : Type} {before : List α} {y : α} {P : List α → α → Prop} :
    (∀ first x after, before ++ [y] = first ++ x :: after → P first x) ↔
      (∀ first x after, before = first ++ x :: after → P first x) ∧ P before y := by
  constructor
  · intro all
    refine ⟨fun first x after split => all first x (after ++ [y]) ?_, all before y [] rfl⟩
    rw [split, List.append_assoc, List.cons_append]
  · rintro ⟨others, last⟩ first x after split
    rcases after.eq_nil_or_concat with rfl | ⟨rest, z, rfl⟩
    · obtain ⟨rfl, same⟩ := List.append_inj' split rfl
      cases same
      exact last
    · rw [List.concat_eq_append, ← List.cons_append, ← List.append_assoc] at split
      exact others first x rest (List.append_inj' split rfl).1

namespace KindRecord

def fieldNames (r : KindRecord) : List String := r.fields.map FieldRecord.name

-- The record of a kind and those of its ancestors, nearest first, out of records that are given latest first.
def ancestors : List KindRecord → Option String → List KindRecord
  | r :: earlier, some kind => if r.kind = kind then r :: ancestors earlier r.parent else ancestors earlier (some kind)
  | _, _ => []

-- A record and its ancestors, outermost first.
def lineage (before : List KindRecord) (r : KindRecord) : List KindRecord :=
  (ancestors before.reverse r.parent).reverse ++ [r]

def lineNames (before : List KindRecord) (r : KindRecord) : List String := (r.lineage before).flatMap fieldNames

-- The parent, if there is one, stands among the records before.
def Follows (before : List KindRecord) (r : KindRecord) : Prop :=
  ∀ kind, r.parent = some kind → kind ∈ before.map KindRecord.kind

end KindRecord

structure SchemaTable.WellFormed (t : SchemaTable) : Prop where
  kinds : (t.kinds.map KindRecord.kind).Nodup
  parents : ∀ before r after, t.kinds = before ++ r :: after → r.Follows before
  names : ∀ before r after, t.kinds = before ++ r :: after → (r.lineNames before).Nodup

-- The first rule that a record breaks behind the records before it, as the error that says so. A field that is there
-- already is the first such field of the record, and is declared by the record of the lineage that has it.
inductive KindRecord.Blamed (before : List KindRecord) (r : KindRecord) : SchemaError → Prop where
  | parent {kind : String} (named : r.parent = some kind) (unknown : kind ∉ before.map KindRecord.kind) :
      Blamed before r (.unknownParent r.kind kind)
  | field {first rest : List FieldRecord} {f : FieldRecord} {declarer : KindRecord} (follows : r.Follows before)
      (own : r.fields = first ++ f :: rest) (apart : (lineNames before { r with fields := first }).Nodup)
      (member : declarer ∈ lineage before { r with fields := first }) (declared : f.name ∈ declarer.fieldNames) :
      Blamed before r (.duplicateField r.kind f.name declarer.kind)
  | kind (follows : r.Follows before) (apart : (r.lineNames before).Nodup)
      (repeated : r.kind ∈ before.map KindRecord.kind) : Blamed before r (.duplicateKind r.kind)

section Records

variable {before : List KindRecord} {r : KindRecord}

theorem SchemaTable.wellFormed_snoc : (⟨before ++ [r]⟩ : SchemaTable).WellFormed ↔
    (⟨before⟩ : SchemaTable).WellFormed ∧ r.Follows before ∧ (r.lineNames before).Nodup ∧
      r.kind ∉ before.map KindRecord.kind := by
  have kinds : ((before ++ [r]).map KindRecord.kind).Nodup ↔
      (before.map KindRecord.kind).Nodup ∧ r.kind ∉ before.map KindRecord.kind := by
    rw [List.map_append, List.map_singleton, ← List.concat_eq_append, List.nodup_concat, and_comm]
  constructor
  · rintro ⟨distinct, parents, names⟩
    obtain ⟨earlier, fresh⟩ := kinds.mp distinct
    obtain ⟨parents, follows⟩ := splits_snoc.mp parents
    obtain ⟨names, apart⟩ := splits_snoc.mp names
    exact ⟨⟨earlier, parents, names⟩, follows, apart, fresh⟩
  · rintro ⟨⟨earlier, parents, names⟩, follows, apart, fresh⟩
    exact ⟨kinds.mpr ⟨earlier, fresh⟩, splits_snoc.mpr ⟨parents, follows⟩, splits_snoc.mpr ⟨names, apart⟩⟩

namespace KindRecord

theorem ancestors_split {kind : String} (known : kind ∈ before.map KindRecord.kind) :
    ∃ earlier a later, before = earlier ++ a :: later ∧ a.kind = kind ∧
      ancestors before.reverse (some kind) = a :: ancestors earlier.reverse a.parent := by
  induction before using List.reverseRecOn with
  | nil => cases known
  | append_singleton before r ih =>
    rw [List.reverse_append, List.reverse_singleton, List.singleton_append, ancestors]
    by_cases here : r.kind = kind
    · exact ⟨before, r, [], rfl, here, if_pos here⟩
    · rw [List.map_append, List.mem_append, List.map_singleton, List.mem_singleton] at known
      obtain ⟨earlier, a, later, rfl, named, line⟩ := ih (known.resolve_right (Ne.symm here))
      exact ⟨earlier, a, later ++ [r], by simp, named, (if_neg here).trans line⟩

theorem lineNames_snoc (r : KindRecord) : r.lineNames before =
    (ancestors before.reverse r.parent).reverse.flatMap fieldNames ++ r.fieldNames := by
  rw [lineNames, lineage, List.flatMap_append, List.flatMap_singleton]

theorem ancestors_apart (formed : (⟨before⟩ : SchemaTable).WellFormed) (follows : r.Follows before) :
    ((ancestors before.reverse r.parent).reverse.flatMap fieldNames).Nodup := by
  cases named : r.parent with
  | none => cases before.reverse <;> exact List.nodup_nil
  | some kind =>
    obtain ⟨earlier, a, later, split, -, line⟩ := ancestors_split (follows kind named)
    rw [line, List.reverse_cons]
    exact formed.names earlier a later split

theorem apart_or_repeated (first rest : List FieldRecord)
    (apart : (lineNames before { r with fields := first }).Nodup) :
    (lineNames before { r with fields := first ++ rest }).Nodup ∨
      ∃ earlier f later, first ++ rest = earlier ++ f :: later ∧
        (lineNames before { r with fields := earlier }).Nodup ∧
        ∃ declarer ∈ lineage before { r with fields := earlier }, f.name ∈ declarer.fieldNames := by
  induction rest generalizing first with
  | nil => exact .inl ((List.append_nil first).symm ▸ apart)
  | cons f rest ih =>
    by_cases there : f.name ∈ lineNames before { r with fields := first }
    · exact .inr ⟨first, f, rest, rfl, apart, List.mem_flatMap.mp there⟩
    · have longer : lineNames before { r with fields := first ++ [f] } =
          lineNames before { r with fields := first } ++ [f.name] := by
        rw [lineNames_snoc, lineNames_snoc, List.append_assoc]
        exact congrArg _ List.map_append
      have still := ih (first ++ [f]) (by
        rw [longer, ← List.concat_eq_append]
        exact (List.nodup_concat _ _).mpr ⟨there, apart⟩)
      rwa [List.append_assoc, List.singleton_append] at still

theorem fits_or_blamed (r : KindRecord) (formed : (⟨before⟩ : SchemaTable).WellFormed) :
    (r.Follows before ∧ (r.lineNames before).Nodup ∧ r.kind ∉ before.map KindRecord.kind) ∨
      ∃ e, r.Blamed before e := by
  by_cases follows : r.Follows before
  · have start : (lineNames before { r with fields := [] }).Nodup := by
      rw [lineNames_snoc]
      exact (List.append_nil _).symm ▸ ancestors_apart formed follows
    rcases apart_or_repeated [] r.fields start with apart | ⟨first, f, rest, own, apart, declarer, member, declared⟩
    · by_cases repeated : r.kind ∈ before.map KindRecord.kind
      · exact .inr ⟨_, .kind follows apart repeated⟩
      · exact .inl ⟨follows, apart, repeated⟩
    · exact .inr ⟨_, .field follows own apart member declared⟩
  · obtain ⟨kind, named, unknown⟩ : ∃ kind, r.parent = some kind ∧ kind ∉ before.map KindRecord.kind := by
      simpa [Follows] using follows
    exact .inr ⟨_, .parent named unknown⟩

end KindRecord

theorem SchemaTable.formed_or_blamed (records : List KindRecord) : (⟨records⟩ : SchemaTable).WellFormed ∨
    ∃ before r after e, records = before ++ r :: after ∧ (⟨before⟩ : SchemaTable).WellFormed ∧ r.Blamed before e := by
  induction records using List.reverseRecOn with
  | nil => exact .inl ⟨List.nodup_nil, by simp, by simp⟩
  | append_singleton records r ih =>
    rcases ih with formed | ⟨before, first, after, e, rfl, formed, blamed⟩
    · rcases r.fits_or_blamed formed with fits | ⟨e, blamed⟩
      · exact .inl (wellFormed_snoc.mpr ⟨formed, fits⟩)
      · exact .inr ⟨records, r, [], e, rfl, formed, blamed⟩
    · exact .inr ⟨before, first, after ++ [r], e, by simp, formed, blamed⟩

end Records

namespace Schema

variable {s p t : Schema} {kind : String} {parent : Option Schema} {start index origin : Nat}
  {fields first rest own : List Field} {f : Field}

theorem declaringKind_root (top : s.parent = none) : s.declaringKind index = s.kind := by
  cases s
  cases top
  rfl

theorem declaringKind_derived (derived : s.parent = some p) :
    s.declaringKind index = if index < s.ownStart then p.declaringKind index else s.kind := by
  cases s
  cases derived
  rfl

theorem declaringKind_owns (inherits : ∀ t ∈ s.chain, t.Inherits) (found : s.fields[index]? = some f) :
    ∃ t ∈ s.chain, t.kind = s.declaringKind index ∧ f ∈ t.ownFields := by
  induction s using parent_induct with
  | root s top =>
    have here : s ∈ s.chain := chain_root top ▸ List.mem_singleton_self s
    rw [(inherits s here).root top] at found
    exact ⟨s, here, (declaringKind_root top).symm, List.mem_of_getElem? found⟩
  | derived s p derived ih =>
    rw [chain_derived derived, List.forall_mem_cons] at inherits
    rw [chain_derived derived, declaringKind_derived derived]
    have whole := inherits.1.derived derived
    obtain ⟨bound, -⟩ := List.getElem?_eq_some_iff.mp found
    have start : index < s.ownStart ↔ index < p.fields.length := by
      have lengths := congrArg List.length whole
      rw [List.length_append, ownFields, List.length_drop] at lengths
      omega
    rw [whole] at found
    by_cases above : index < s.ownStart
    · rw [List.getElem?_append_left (start.mp above)] at found
      obtain ⟨t, member, declares, owns⟩ := ih inherits.2 found
      exact ⟨t, List.mem_cons_of_mem _ member, declares.trans (if_pos above).symm, owns⟩
    · rw [List.getElem?_append_right (Nat.le_of_not_lt fun less => above (start.mpr less))] at found
      exact ⟨s, List.mem_cons_self .., (if_neg above).symm, List.mem_of_getElem? found⟩

theorem extend_fresh (apart : ((fields ++ first).map Field.name).Nodup) :
    extend kind parent start fields (first ++ rest) = extend kind parent start (fields ++ first) rest := by
  induction first generalizing fields with
  | nil => rw [List.append_nil, List.nil_append]
  | cons f first ih =>
    have shifted : fields ++ f :: first = fields ++ [f] ++ first := by simp
    have absent : fields.findIdx? (fun g => g.name == f.name) = none := by
      rw [List.map_append, List.map_cons] at apart
      refine List.findIdx?_eq_none_iff.mpr fun g member => beq_eq_false_iff_ne.mpr ?_
      exact (List.nodup_append.mp apart).2.2 _ (List.mem_map_of_mem member) _ (List.mem_cons_self ..)
    rw [shifted] at apart ⊢
    rw [← ih apart, List.cons_append, extend, absent]

def handedDown (parent : Option Schema) : List Field := (parent.map Schema.fields).getD []

theorem build_fresh (apart : ((handedDown parent ++ own).map Field.name).Nodup) :
    build origin kind parent own =
      .ok ⟨kind, parent, handedDown parent ++ own, (handedDown parent).length, origin⟩ := by
  have extended : extend kind parent (handedDown parent).length (handedDown parent) own =
      .ok (handedDown parent ++ own) :=
    calc
      _ = extend kind parent (handedDown parent).length (handedDown parent) (own ++ []) := by rw [List.append_nil]
      _ = extend kind parent (handedDown parent).length (handedDown parent ++ own) [] := extend_fresh apart
      _ = _ := rfl
  exact bind_ok.mpr ⟨_, extended, rfl⟩

def declarer (kind : String) (parent : Option Schema) (index : Nat) : String :=
  match parent with
  | some p => if index < (handedDown parent).length then p.declaringKind index else kind
  | none => kind

theorem declarer_owns (kind : String) (inherits : ∀ p, parent = some p → ∀ t ∈ p.chain, t.Inherits)
    (found : (handedDown parent ++ first)[index]? = some f) :
    (∃ p, parent = some p ∧ ∃ t ∈ p.chain, t.kind = declarer kind parent index ∧ f ∈ t.ownFields) ∨
      declarer kind parent index = kind ∧ f ∈ first := by
  cases parent with
  | none => exact .inr ⟨rfl, List.mem_of_getElem? found⟩
  | some p =>
    by_cases above : index < (handedDown (some p)).length
    · rw [List.getElem?_append_left above] at found
      obtain ⟨t, member, declares, owns⟩ := declaringKind_owns (inherits p rfl) found
      exact .inl ⟨p, rfl, t, member, declares.trans (if_pos above).symm, owns⟩
    · rw [List.getElem?_append_right (Nat.le_of_not_lt above)] at found
      exact .inr ⟨if_neg above, List.mem_of_getElem? found⟩

theorem build_repeated (apart : ((handedDown parent ++ first).map Field.name).Nodup)
    (repeated : f.name ∈ (handedDown parent ++ first).map Field.name) :
    ∃ index g, (handedDown parent ++ first)[index]? = some g ∧ g.name = f.name ∧
      build origin kind parent (first ++ f :: rest) =
        .error (.duplicateField kind f.name (declarer kind parent index)) := by
  cases there : (handedDown parent ++ first).findIdx? (fun g => g.name == f.name) with
  | none =>
    obtain ⟨g, member, same⟩ := List.mem_map.mp repeated
    exact absurd same (by simpa using List.findIdx?_eq_none_iff.mp there g member)
  | some index =>
    obtain ⟨bound, same, -⟩ := List.findIdx?_eq_some_iff_getElem.mp there
    have refused : extend kind parent (handedDown parent).length (handedDown parent) (first ++ f :: rest) =
        .error (.duplicateField kind f.name (declarer kind parent index)) := by
      rw [extend_fresh apart, extend, there]
      rfl
    refine ⟨index, _, List.getElem?_eq_getElem bound, by simpa using same, ?_⟩
    change (extend kind parent (handedDown parent).length (handedDown parent) (first ++ f :: rest) >>= _) = _
    rw [refused]
    rfl

theorem chain_parent (s : Schema) : s.chain = s :: (s.parent.map chain).getD [] := by
  cases above : s.parent with
  | none => exact chain_root above
  | some p => exact chain_derived above

def entry (s : Schema) : String × List Field := (s.kind, s.ownFields)

end Schema

namespace KindRecord

variable {before : List KindRecord} {r a b : KindRecord} {name : String}

def entry (r : KindRecord) : String × List Field := (r.kind, r.ownFields)

theorem ownFields_names (r : KindRecord) : r.ownFields.map Field.name = r.fieldNames := by
  rw [ownFields, List.map_map]
  rfl

theorem owner_unique (apart : (r.lineNames before).Nodup) (first : a ∈ r.lineage before) (second : b ∈ r.lineage before)
    (has : name ∈ a.fieldNames) (too : name ∈ b.fieldNames) : a = b := by
  by_contra other
  have : Std.Symm (Function.onFun List.Disjoint fieldNames) := ⟨fun _ _ apart _ first second => apart second first⟩
  have disjoint := (List.nodup_flatMap.mp apart).2.forall first second other
  exact disjoint has too

end KindRecord

namespace Registry

variable {r : Registry} {s : Schema} {before : List KindRecord} {record : KindRecord} {above : Option Schema}
  {kind : String} {e : SchemaError}

theorem contains_kinds : r.contains kind = true ↔ kind ∈ r.kinds := by simp [contains, kinds]

theorem get_none : r.get? kind = none ↔ kind ∉ r.kinds := by simp [get?, kinds]

-- A registry that was made from these records: chains are lineages.
structure Mirrors (before : List KindRecord) (r : Registry) : Prop where
  sound : r.Sound
  kinds : r.kinds = before.map KindRecord.kind
  chains : ∀ kind s, r.get? kind = some s →
    s.chain.map Schema.entry = (KindRecord.ancestors before.reverse (some kind)).map KindRecord.entry

theorem empty_mirrors (origin : Nat) : (empty origin).Mirrors [] where
  sound := empty_sound origin
  kinds := rfl
  chains := nofun

structure Parent (before : List KindRecord) (r : Registry) (record : KindRecord) (above : Option Schema) : Prop where
  member : ∀ p, above = some p → p ∈ r.schemas
  chain : ((above.map Schema.chain).getD []).map Schema.entry =
    (KindRecord.ancestors before.reverse record.parent).map KindRecord.entry
  declare : r.declare record = Schema.build r.origin record.kind above record.ownFields >>= r.insert

theorem Mirrors.parent (mirrors : r.Mirrors before) (follows : record.Follows before) :
    ∃ above, Parent before r record above := by
  cases named : record.parent with
  | none =>
    refine ⟨none, nofun, ?_, ?_⟩
    · rw [named]
      cases before.reverse <;> rfl
    · rw [declare, named]
      rfl
  | some kind =>
    cases found : r.get? kind with
    | none => exact absurd (mirrors.kinds ▸ follows kind named) (get_none.mp found)
    | some p =>
      refine ⟨some p, fun _ same => Option.some.inj same ▸ get_member found, ?_, ?_⟩
      · rw [named]
        exact mirrors.chains kind p found
      · simp only [declare, named, found]
        rfl

namespace Parent

theorem fields (parent : Parent before r record above) (sound : r.Sound) : Schema.handedDown above =
    (KindRecord.ancestors before.reverse record.parent).reverse.flatMap KindRecord.ownFields := by
  have chained : Schema.handedDown above = ((above.map Schema.chain).getD []).reverse.flatMap Schema.ownFields := by
    cases above with
    | none => rfl
    | some p => exact sound.chain_fields (parent.member p rfl)
  calc
    _ = (((above.map Schema.chain).getD []).map Schema.entry).reverse.flatMap Prod.snd := by
      rw [chained, ← List.map_reverse, List.flatMap_map]
      rfl
    _ = _ := by
      rw [parent.chain, ← List.map_reverse, List.flatMap_map]
      rfl

theorem names (parent : Parent before r record above) (sound : r.Sound) (fields : List FieldRecord) :
    (Schema.handedDown above ++ KindRecord.ownFields { record with fields }).map Field.name =
      KindRecord.lineNames before { record with fields } := by
  rw [KindRecord.lineNames_snoc, List.map_append, parent.fields sound, KindRecord.ownFields_names, List.map_flatMap]
  simp only [KindRecord.ownFields_names]

theorem owner {fields : List FieldRecord} {index : Nat} {g : Field} (parent : Parent before r record above)
    (sound : r.Sound)
    (found : (Schema.handedDown above ++ KindRecord.ownFields { record with fields })[index]? = some g) :
    ∃ a ∈ KindRecord.lineage before { record with fields },
      a.kind = Schema.declarer record.kind above index ∧ g.name ∈ a.fieldNames := by
  have inherits : ∀ p, above = some p → ∀ t ∈ p.chain, t.Inherits := fun p same t there =>
    sound.inherits t (sound.chain_member (parent.member p same) there).1
  rcases Schema.declarer_owns record.kind inherits found with ⟨p, same, t, there, declares, owns⟩ | ⟨declares, owns⟩
  · subst same
    have listed : t.entry ∈ (KindRecord.ancestors before.reverse record.parent).map KindRecord.entry :=
      parent.chain ▸ List.mem_map_of_mem there
    obtain ⟨a, ancestor, same⟩ := List.mem_map.mp listed
    obtain ⟨kind, own⟩ := Prod.mk.inj same
    refine ⟨a, List.mem_append_left _ (List.mem_reverse.mpr ancestor), kind.trans declares, ?_⟩
    exact a.ownFields_names ▸ List.mem_map_of_mem (own.symm ▸ owns)
  · refine ⟨_, List.mem_append_right _ (List.mem_singleton_self _), declares.symm, ?_⟩
    exact KindRecord.ownFields_names _ ▸ List.mem_map_of_mem owns

theorem build_fresh (parent : Parent before r record above) (sound : r.Sound)
    (apart : (record.lineNames before).Nodup) :
    Schema.build r.origin record.kind above record.ownFields = .ok ⟨record.kind, above,
      Schema.handedDown above ++ record.ownFields, (Schema.handedDown above).length, r.origin⟩ :=
  Schema.build_fresh ((parent.names sound record.fields).symm ▸ apart)

theorem chain_built {origin : Nat} (parent : Parent before r record above) :
    (⟨record.kind, above, Schema.handedDown above ++ record.ownFields, (Schema.handedDown above).length,
      origin⟩ : Schema).chain.map Schema.entry =
        record.entry :: (KindRecord.ancestors before.reverse record.parent).map KindRecord.entry := by
  have own : (Schema.handedDown above ++ record.ownFields).drop (Schema.handedDown above).length =
      record.ownFields := List.drop_left
  rw [Schema.chain_parent, List.map_cons, parent.chain, Schema.entry, Schema.ownFields, own]
  rfl

end Parent

theorem insert_repeated (repeated : s.kind ∈ r.kinds) : r.insert s = .error (.duplicateKind s.kind) :=
  if_pos (contains_kinds.mpr repeated)

theorem insert_fresh (fresh : s.kind ∉ r.kinds) : r.insert s = .ok ⟨r.origin, r.schemas ++ [s]⟩ :=
  if_neg fun there => fresh (contains_kinds.mp there)

theorem get_snoc {origin : Nat} (fresh : s.kind ∉ r.kinds) (kind : String) :
    (⟨origin, r.schemas ++ [s]⟩ : Registry).get? kind = if s.kind = kind then some s else r.get? kind := by
  change (r.schemas ++ [s]).find? _ = _
  rw [List.find?_append, List.find?_singleton]
  by_cases here : s.kind = kind
  · subst here
    have absent : r.schemas.find? (fun t => t.kind == s.kind) = none := get_none.mpr fresh
    rw [absent, Option.none_or, if_pos (beq_self_eq_true _), if_pos rfl]
  · rw [if_neg here, if_neg (by simpa using here), Option.or_none, get?]

namespace Mirrors

theorem declare_fits (mirrors : r.Mirrors before) (follows : record.Follows before)
    (apart : (record.lineNames before).Nodup) (fresh : record.kind ∉ before.map KindRecord.kind) :
    ∃ grown, r.declare record = .ok grown ∧ grown.Mirrors (before ++ [record]) := by
  obtain ⟨above, parent⟩ := mirrors.parent follows
  have built := parent.build_fresh mirrors.sound apart
  have unknown : record.kind ∉ r.kinds := mirrors.kinds.symm ▸ fresh
  have declared := parent.declare.trans (bind_ok.mpr ⟨_, built, insert_fresh unknown⟩)
  refine ⟨_, declared, declare_sound mirrors.sound declared, ?_, fun kind s found => ?_⟩
  · calc
      _ = r.kinds ++ [record.kind] := List.map_append
      _ = _ := by rw [mirrors.kinds, List.map_append, List.map_singleton]
  · rw [List.reverse_append, List.reverse_singleton, List.singleton_append, KindRecord.ancestors]
    rw [get_snoc unknown] at found
    by_cases here : record.kind = kind
    · rw [if_pos here] at found ⊢
      cases found
      rw [parent.chain_built, List.map_cons]
    · rw [if_neg here] at found ⊢
      exact mirrors.chains kind s found

theorem declare_blamed (mirrors : r.Mirrors before) (blamed : record.Blamed before e) :
    r.declare record = .error e := by
  cases blamed with
  | @parent kind named unknown =>
    have absent := get_none.mpr (mirrors.kinds.symm ▸ unknown : kind ∉ r.kinds)
    simp only [declare, named, absent]
    rfl
  | @field first rest f declarer follows own apart member declared =>
    obtain ⟨above, parent⟩ := mirrors.parent follows
    have names := parent.names mirrors.sound first
    let repeated : Field := .ofTags f.name f.type f.cardinality
    have there : repeated.name ∈ KindRecord.lineNames before { record with fields := first } :=
      List.mem_flatMap.mpr ⟨declarer, member, declared⟩
    have split : record.ownFields = KindRecord.ownFields { record with fields := first } ++
        repeated :: rest.map fun f => .ofTags f.name f.type f.cardinality := by
      rw [KindRecord.ownFields, own, List.map_append, List.map_cons]
      rfl
    obtain ⟨index, g, found, same, refused⟩ := Schema.build_repeated (names.symm ▸ apart) (names.symm ▸ there)
    obtain ⟨a, inside, kind, has⟩ := parent.owner mirrors.sound found
    obtain rfl : a = declarer := KindRecord.owner_unique apart inside member has (same ▸ declared)
    rw [parent.declare, split, refused, kind]
    rfl
  | kind follows apart repeated =>
    obtain ⟨above, parent⟩ := mirrors.parent follows
    rw [parent.declare, parent.build_fresh mirrors.sound apart]
    exact insert_repeated (mirrors.kinds.symm ▸ repeated)

end Mirrors

theorem ofTable_formed (origin : Nat) {records : List KindRecord} (formed : (⟨records⟩ : SchemaTable).WellFormed) :
    ∃ r, ofTable origin ⟨records⟩ = .ok r ∧ r.Mirrors records := by
  induction records using List.reverseRecOn with
  | nil => exact ⟨_, rfl, empty_mirrors origin⟩
  | append_singleton before record ih =>
    obtain ⟨earlier, follows, apart, fresh⟩ := SchemaTable.wellFormed_snoc.mp formed
    obtain ⟨r, loaded, mirrors⟩ := ih earlier
    obtain ⟨grown, declared, after⟩ := mirrors.declare_fits follows apart fresh
    refine ⟨grown, ?_, after⟩
    rw [ofTable, List.foldlM_append]
    exact bind_ok.mpr ⟨r, loaded, bind_ok.mpr ⟨grown, declared, rfl⟩⟩

theorem ofTable_blamed (origin : Nat) {after : List KindRecord} (formed : (⟨before⟩ : SchemaTable).WellFormed)
    (blamed : record.Blamed before e) : ofTable origin ⟨before ++ record :: after⟩ = .error e := by
  obtain ⟨r, loaded, mirrors⟩ := ofTable_formed origin formed
  rw [ofTable] at loaded
  rw [ofTable, List.foldlM_append, loaded]
  change (r.declare record >>= fun r => after.foldlM declare r) = _
  rw [mirrors.declare_blamed blamed]
  rfl

-- Loading a table accepts the well-formed ones, and tells of any other the first record that breaks a rule and how.
theorem ofTable_decides (origin : Nat) (t : SchemaTable) :
    ((∃ r, ofTable origin t = .ok r) ↔ t.WellFormed) ∧
    (∀ r, ofTable origin t = .ok r → r.kinds = t.kinds.map KindRecord.kind) ∧
    ∀ e, ofTable origin t = .error e ↔ ∃ before record after, t.kinds = before ++ record :: after ∧
      (⟨before⟩ : SchemaTable).WellFormed ∧ record.Blamed before e := by
  obtain ⟨records⟩ := t
  have refused : ∀ e, (∃ before record after, records = before ++ record :: after ∧
      (⟨before⟩ : SchemaTable).WellFormed ∧ record.Blamed before e) → ofTable origin ⟨records⟩ = .error e := by
    rintro e ⟨before, record, after, rfl, formed, blamed⟩
    exact ofTable_blamed origin formed blamed
  rcases SchemaTable.formed_or_blamed records with formed | ⟨before, record, after, e, split, earlier, blamed⟩
  · obtain ⟨r, loaded, mirrors⟩ := ofTable_formed origin formed
    refine ⟨⟨fun _ => formed, fun _ => ⟨r, loaded⟩⟩, fun other same => ?_, fun e => ⟨fun failed => ?_, refused e⟩⟩
    · cases loaded.symm.trans same
      exact mirrors.kinds
    · cases loaded.symm.trans failed
  · have failed := refused e ⟨before, record, after, split, earlier, blamed⟩
    refine ⟨⟨?_, fun formed => ?_⟩, ?_, fun other => ⟨fun same => ?_, refused other⟩⟩
    · rintro ⟨r, loaded⟩
      cases failed.symm.trans loaded
    · obtain ⟨r, loaded, -⟩ := ofTable_formed origin formed
      exact ⟨r, loaded⟩
    · intro r loaded
      cases failed.symm.trans loaded
    · cases failed.symm.trans same
      exact ⟨before, record, after, split, earlier, blamed⟩

-- The third kind repeats a field of its outermost ancestor in front of one of its parent, and the fourth record is no
-- better.
def guards : SchemaTable :=
  ⟨[⟨"stmt", none, [⟨"line", "int", "required"⟩]⟩,
    ⟨"Return", some "stmt", [⟨"value", "expr", "optional"⟩]⟩,
    ⟨"Guarded", some "Return", [⟨"guard", "expr", "required"⟩, ⟨"line", "int", "optional"⟩,
      ⟨"value", "expr", "required"⟩]⟩,
    ⟨"Return", some "Yield", []⟩]⟩

theorem guards_blamed : ofTable 0 returns = .ok ⟨0, [statements, returning]⟩ ∧ returns.WellFormed ∧
    (⟨0, [statements, returning]⟩ : Registry).kinds = ["stmt", "Return"] ∧ ¬guards.WellFormed ∧
    ∃ before record after, guards.kinds = before ++ record :: after ∧ (⟨before⟩ : SchemaTable).WellFormed ∧
      record.Blamed before (.duplicateField "Guarded" "line" "stmt") := by
  have loaded : ofTable 0 returns = .ok ⟨0, [statements, returning]⟩ := rfl
  have failed : ofTable 0 guards = .error (.duplicateField "Guarded" "line" "stmt") := rfl
  obtain ⟨formed, listed, -⟩ := ofTable_decides 0 returns
  obtain ⟨accepted, -, blamed⟩ := ofTable_decides 0 guards
  refine ⟨loaded, formed.mp ⟨_, loaded⟩, listed _ loaded, fun formed => ?_, (blamed _).mp failed⟩
  obtain ⟨r, other⟩ := accepted.mpr formed
  cases failed.symm.trans other

end Registry

end TreeLowering
