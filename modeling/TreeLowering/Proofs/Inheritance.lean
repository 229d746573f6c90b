import TreeLowering.Proofs.CoreSchemas

namespace TreeLowering

namespace Schema

variable {s p : Schema}

theorem parent_induct {P : Schema → Prop} (root : ∀ s : Schema, s.parent = none → P s)
    (derived : ∀ s p : Schema, s.parent = some p → P p → P s) : ∀ s, P s
  | ⟨_, none, _, _, _⟩ => root _ rfl
  | ⟨_, some p, _, _, _⟩ => derived _ p rfl (parent_induct root derived p)

theorem chain_root (top : s.parent = none) : s.chain = [s] := by
  cases s
  cases top
  rfl

theorem chain_derived (parent : s.parent = some p) : s.chain = s :: p.chain := by
  cases s
  cases parent
  rfl

theorem resolve_root (top : s.parent = none) (name : String) :
    s.resolve? name = s.ownFields.find? fun f => f.name == name := by
  cases s
  cases top
  rfl

theorem resolve_derived (parent : s.parent = some p) (name : String) :
    s.resolve? name = ((s.ownFields.find? fun f => f.name == name) <|> p.resolve? name) := by
  cases s
  cases parent
  rfl

theorem subkind_chain {kind : String} : s.isSubkindOf kind = true ↔ ∃ t ∈ s.chain, t.kind = kind := by
  simp [isSubkindOf]

theorem chain_trans {t u : Schema} (first : t ∈ s.chain) (second : u ∈ t.chain) : u ∈ s.chain := by
  induction s using parent_induct with
  | root s top =>
    rw [chain_root top, List.mem_singleton] at first
    exact first ▸ second
  | derived s p parent ih =>
    rw [chain_derived parent, List.mem_cons] at first
    rcases first with rfl | above
    · exact second
    · exact chain_derived parent ▸ List.mem_cons_of_mem _ (ih above)

def inherited (s : Schema) : List Field := (s.parent.map Schema.fields).getD []

-- A schema of which the list of fields is put together as inheritance asks for.
structure Inherits (s : Schema) : Prop where
  fields : s.fields = s.inherited ++ s.ownFields
  distinct : (s.fields.map Field.name).Nodup

theorem Inherits.root (inherits : s.Inherits) (top : s.parent = none) : s.fields = s.ownFields := by
  have fields := inherits.fields
  rwa [inherited, top] at fields

theorem Inherits.derived (inherits : s.Inherits) (parent : s.parent = some p) :
    s.fields = p.fields ++ s.ownFields := by
  have fields := inherits.fields
  rwa [inherited, parent] at fields

theorem extend_fields {kind : String} {parent : Option Schema} {start : Nat} {fields own all : List Field}
    (distinct : (fields.map Field.name).Nodup) (extended : extend kind parent start fields own = .ok all) :
    all = fields ++ own ∧ (all.map Field.name).Nodup := by
  induction own generalizing fields with
  | nil =>
    cases extended
    exact ⟨(List.append_nil _).symm, distinct⟩
  | cons f own ih =>
    unfold extend at extended
    cases found : fields.findIdx? fun g => g.name == f.name with
    | some index =>
      rw [found] at extended
      cases extended
    | none =>
      rw [found] at extended
      have fresh : f.name ∉ fields.map Field.name := by simpa [List.findIdx?_eq_none_iff] using found
      have still : ((fields ++ [f]).map Field.name).Nodup := by
        rw [List.map_append]
        exact List.nodup_append_comm.mp (List.nodup_cons.mpr ⟨fresh, distinct⟩)
      obtain ⟨rfl, names⟩ := ih still extended
      exact ⟨List.append_assoc .., names⟩

theorem build_inherits {origin : Nat} {kind : String} {parent : Option Schema} {own : List Field}
    (distinct : ∀ p, parent = some p → (p.fields.map Field.name).Nodup)
    (built : build origin kind parent own = .ok s) : s.Inherits ∧ s.parent = parent ∧ s.ownFields = own := by
  unfold build at built
  have start : (((parent.map Schema.fields).getD []).map Field.name).Nodup := by
    cases parent with
    | none => exact List.nodup_nil
    | some p => exact distinct p rfl
  obtain ⟨all, extended, made⟩ := bind_ok.mp built
  cases made
  obtain ⟨rfl, names⟩ := extend_fields start extended
  have owned : (((parent.map Schema.fields).getD []) ++ own).drop ((parent.map Schema.fields).getD []).length
    = own := List.drop_left
  exact ⟨⟨congrArg _ owned.symm, names⟩, rfl, owned⟩

theorem find_swap {first second : List Field} {name : String}
    (apart : ∀ f ∈ first, ∀ g ∈ second, f.name ≠ g.name) :
    ((second.find? fun f => f.name == name) <|> first.find? fun f => f.name == name) =
      ((first.find? fun f => f.name == name) <|> second.find? fun f => f.name == name) := by
  cases here : first.find? fun f => f.name == name with
  | none => simp
  | some f =>
    cases there : second.find? fun f => f.name == name with
    | none => rfl
    | some g =>
      have named : f.name = name := by simpa using List.find?_some here
      have other : g.name = name := by simpa using List.find?_some there
      exact absurd (named.trans other.symm)
        (apart f (List.mem_of_find?_eq_some here) g (List.mem_of_find?_eq_some there))

end Schema

namespace Registry

variable {r : Registry} {s p t a b : Schema}

def position (r : Registry) (s : Schema) : Nat := r.kinds.idxOf s.kind

-- What every insertion keeps: no kind twice, schemas that inherit as they have to, and each parent before them.
structure Sound (r : Registry) : Prop where
  kinds : r.kinds.Nodup
  inherits : ∀ s ∈ r.schemas, s.Inherits
  parents (index : Nat) (s p : Schema) : r.schemas[index]? = some s → s.parent = some p →
    ∃ earlier < index, r.schemas[earlier]? = some p

theorem empty_sound (origin : Nat) : (empty origin).Sound :=
  ⟨List.nodup_nil, fun _ member => (List.not_mem_nil member).elim, fun _ _ _ found => by cases found⟩

theorem insert_sound {r' : Registry} (sound : r.Sound) (inherits : s.Inherits)
    (parent : ∀ p, s.parent = some p → p ∈ r.schemas) (inserted : r.insert s = .ok r') : r'.Sound := by
  unfold insert at inserted
  split at inserted
  next => cases inserted
  next absent =>
    cases inserted
    refine ⟨?_, ?_, ?_⟩
    · have fresh : s.kind ∉ r.kinds := by simpa [contains, Registry.kinds] using absent
      change ((r.schemas ++ [s]).map Schema.kind).Nodup
      rw [List.map_append]
      exact List.nodup_append_comm.mp (List.nodup_cons.mpr ⟨fresh, sound.kinds⟩)
    · intro t member
      rcases List.mem_append.mp member with before | new
      · exact sound.inherits t before
      · exact List.mem_singleton.mp new ▸ inherits
    · intro index t p found above
      change (r.schemas ++ [s])[index]? = some t at found
      rcases Nat.lt_or_ge index r.schemas.length with before | behind
      · rw [List.getElem?_append_left before] at found
        obtain ⟨earlier, lower, there⟩ := sound.parents index t p found above
        exact ⟨earlier, lower, (List.getElem?_append_left (Nat.lt_trans lower before)).trans there⟩
      · rw [List.getElem?_append_right behind] at found
        obtain rfl : t = s := by simpa using List.mem_of_getElem? found
        obtain ⟨earlier, there⟩ := List.mem_iff_getElem?.mp (parent p above)
        obtain ⟨bound, -⟩ := List.getElem?_eq_some_iff.mp there
        exact ⟨earlier, Nat.lt_of_lt_of_le bound behind, (List.getElem?_append_left bound).trans there⟩

theorem build_sound {r' : Registry} {origin : Nat} {kind : String} {parent : Option Schema} {own : List Field}
    (sound : r.Sound) (member : ∀ p, parent = some p → p ∈ r.schemas)
    (built : Schema.build origin kind parent own = .ok s) (inserted : r.insert s = .ok r') : r'.Sound := by
  obtain ⟨inherits, rfl, -⟩ := Schema.build_inherits (fun p same => (sound.inherits p (member p same)).distinct) built
  exact insert_sound sound inherits member inserted

theorem declare_sound {r' : Registry} {record : KindRecord} (sound : r.Sound)
    (declared : r.declare record = .ok r') : r'.Sound := by
  obtain ⟨parent, member, made⟩ : ∃ parent, (∀ p, parent = some p → p ∈ r.schemas) ∧
      (Schema.build r.origin record.kind parent record.ownFields >>= r.insert) = .ok r' := by
    unfold declare at declared
    cases named : record.parent with
    | none =>
      rw [named] at declared
      exact ⟨none, fun _ no => (Option.some_ne_none _ no.symm).elim, declared⟩
    | some parent =>
      simp only [named] at declared
      cases found : r.get? parent with
      | none =>
        rw [found] at declared
        cases declared
      | some p =>
        rw [found] at declared
        exact ⟨some p, fun _ same => Option.some.inj same ▸ get_member found, declared⟩
  obtain ⟨s, built, inserted⟩ := bind_ok.mp made
  exact build_sound sound member built inserted

theorem declareAll_sound {r' : Registry} {records : List KindRecord} (sound : r.Sound)
    (declared : records.foldlM declare r = .ok r') : r'.Sound := by
  induction records generalizing r with
  | nil =>
    cases declared
    exact sound
  | cons record rest ih =>
    rw [List.foldlM_cons] at declared
    obtain ⟨next, first, others⟩ := bind_ok.mp declared
    exact ih (declare_sound sound first) others

-- The registry after a schema was inserted; one whose kind is there already changes nothing.
def offer (r : Registry) (s : Schema) : Registry :=
  match r.insert s with
  | .ok grown => grown
  | .error _ => r

-- A registry that was made from a table and then offered schemas, each a root or built on a member.
inductive Grown : Registry → Prop where
  | table {origin : Nat} {table : SchemaTable} {r : Registry} (loaded : ofTable origin table = .ok r) : Grown r
  | root {r : Registry} {origin : Nat} {kind : String} {own : List Field} {s : Schema} (grown : Grown r)
      (built : Schema.root origin kind own = .ok s) : Grown (r.offer s)
  | derived {r : Registry} {origin : Nat} {kind : String} {parent : Schema} {own : List Field} {s : Schema}
      (grown : Grown r) (member : parent ∈ r.schemas) (built : Schema.derived origin kind parent own = .ok s) :
      Grown (r.offer s)

theorem offer_sound {origin : Nat} {kind : String} {parent : Option Schema} {own : List Field}
    (sound : r.Sound) (member : ∀ p, parent = some p → p ∈ r.schemas)
    (built : Schema.build origin kind parent own = .ok s) : (r.offer s).Sound := by
  unfold offer
  cases inserted : r.insert s with
  | ok grown => exact build_sound sound member built inserted
  | error e => exact sound

theorem grown_sound (grown : r.Grown) : r.Sound := by
  induction grown with
  | table loaded => exact declareAll_sound (empty_sound _) loaded
  | root grown built ih => exact offer_sound ih (fun _ no => (Option.some_ne_none _ no.symm).elim) built
  | derived grown member built ih =>
    exact offer_sound ih (fun _ same => Option.some.inj same ▸ member) built

namespace Sound

theorem unique (sound : r.Sound) (first : a ∈ r.schemas) (second : b ∈ r.schemas) (same : a.kind = b.kind) : a = b :=
  List.inj_on_of_nodup_map sound.kinds first second same

theorem get (sound : r.Sound) (member : s ∈ r.schemas) : r.get? s.kind = some s := by
  cases found : r.get? s.kind with
  | none => exact absurd (beq_self_eq_true s.kind) (List.find?_eq_none.mp found s member)
  | some other =>
    have same : other.kind = s.kind := by simpa using List.find?_some found
    rw [sound.unique (get_member found) member same]

theorem position_at (sound : r.Sound) {index : Nat} (found : r.schemas[index]? = some s) :
    r.position s = index := by
  obtain ⟨bound, rfl⟩ := List.getElem?_eq_some_iff.mp found
  have inside : index < r.kinds.length := by simpa [Registry.kinds] using bound
  have kind : r.schemas[index].kind = r.kinds[index] := by simp [Registry.kinds]
  rw [position, kind]
  exact sound.kinds.idxOf_getElem index inside

theorem parent_before (sound : r.Sound) (member : s ∈ r.schemas) (parent : s.parent = some p) :
    p ∈ r.schemas ∧ r.position p < r.position s := by
  obtain ⟨index, found⟩ := List.mem_iff_getElem?.mp member
  obtain ⟨earlier, lower, there⟩ := sound.parents index s p found parent
  refine ⟨List.mem_of_getElem? there, ?_⟩
  rw [sound.position_at found, sound.position_at there]
  exact lower

theorem chain_member (sound : r.Sound) (member : s ∈ r.schemas) (above : t ∈ s.chain) :
    t ∈ r.schemas ∧ r.position t ≤ r.position s := by
  induction s using Schema.parent_induct with
  | root s top =>
    obtain rfl : t = s := by simpa [Schema.chain_root top] using above
    exact ⟨member, Nat.le_refl _⟩
  | derived s p parent ih =>
    obtain ⟨known, before⟩ := sound.parent_before member parent
    rw [Schema.chain_derived parent, List.mem_cons] at above
    rcases above with rfl | further
    · exact ⟨member, Nat.le_refl _⟩
    · obtain ⟨there, lower⟩ := ih known further
      exact ⟨there, Nat.le_trans lower (Nat.le_of_lt before)⟩

theorem chain_ordered (sound : r.Sound) (member : s ∈ r.schemas) :
    s.chain.Pairwise fun t u => r.position u < r.position t := by
  induction s using Schema.parent_induct with
  | root s top => exact Schema.chain_root top ▸ List.pairwise_singleton _ _
  | derived s p parent ih =>
    obtain ⟨known, before⟩ := sound.parent_before member parent
    rw [Schema.chain_derived parent]
    refine List.pairwise_cons.mpr ⟨fun t above => ?_, ih known⟩
    exact Nat.lt_of_le_of_lt (sound.chain_member known above).2 before

theorem chain_fields (sound : r.Sound) (member : s ∈ r.schemas) :
    s.fields = s.chain.reverse.flatMap Schema.ownFields := by
  induction s using Schema.parent_induct with
  | root s top =>
    rw [Schema.chain_root top]
    simpa using (sound.inherits s member).root top
  | derived s p parent ih =>
    have own := (sound.inherits s member).derived parent
    rw [ih (sound.parent_before member parent).1] at own
    rw [Schema.chain_derived parent, List.reverse_cons, List.flatMap_append]
    simpa using own

theorem resolve_find (sound : r.Sound) (member : s ∈ r.schemas) (name : String) :
    s.resolve? name = s.fields.find? fun f => f.name == name := by
  induction s using Schema.parent_induct with
  | root s top =>
    rw [Schema.resolve_root top, (sound.inherits s member).root top]
  | derived s p parent ih =>
    have own := (sound.inherits s member).derived parent
    have distinct := (sound.inherits s member).distinct
    rw [own, List.map_append] at distinct
    have apart : ∀ f ∈ p.fields, ∀ g ∈ s.ownFields, f.name ≠ g.name := fun f first g second =>
      (List.nodup_append.mp distinct).2.2 _ (List.mem_map_of_mem first) _ (List.mem_map_of_mem second)
    rw [Schema.resolve_derived parent, ih (sound.parent_before member parent).1, Schema.find_swap apart, own,
      List.find?_append, Option.or_eq_orElse]
    rfl

theorem chain_begins (sound : r.Sound) (member : s ∈ r.schemas) (above : t ∈ s.chain) : t.fields <+: s.fields := by
  induction s using Schema.parent_induct with
  | root s top =>
    rw [Schema.chain_root top, List.mem_singleton] at above
    exact above ▸ List.prefix_rfl
  | derived s p parent ih =>
    rw [Schema.chain_derived parent, List.mem_cons] at above
    rcases above with rfl | further
    · exact List.prefix_rfl
    · have begins : p.fields <+: s.fields := ⟨_, ((sound.inherits s member).derived parent).symm⟩
      exact (ih (sound.parent_before member parent).1 further).trans begins

theorem subkind_above (sound : r.Sound) (first : a ∈ r.schemas) (second : b ∈ r.schemas) :
    a.isSubkindOf b.kind = true ↔ b ∈ a.chain := by
  rw [Schema.subkind_chain]
  constructor
  · intro below
    obtain ⟨t, above, same⟩ := below
    exact sound.unique (sound.chain_member first above).1 second same ▸ above
  · exact fun above => ⟨b, above, rfl⟩

end Sound

-- What everything else takes for granted of a registry.
structure Coherent (r : Registry) : Prop where
  -- A chain leads past schemas that the registry gives under their kinds, backwards in its order and never twice
  -- past one kind.
  registered : ∀ s ∈ r.schemas, ∀ t ∈ s.chain, r.get? t.kind = some t
  backwards : ∀ s ∈ r.schemas, s.chain.Pairwise fun t u => r.position u < r.position t
  apart : ∀ s ∈ r.schemas, (s.chain.map Schema.kind).Nodup
  -- The fields are those that the chain declares, outermost first, under different names.
  fields : ∀ s ∈ r.schemas, s.fields = s.chain.reverse.flatMap Schema.ownFields
  names : ∀ s ∈ r.schemas, (s.fields.map Field.name).Nodup
  -- Looking up the chain and looking into the list come to the same.
  lookup : ∀ s ∈ r.schemas, ∀ name, s.resolve? name = (s.fieldIndex? name).bind (s.fields[·]?) ∧
    (s.resolve? name).isSome = (s.fieldIndex? name).isSome
  -- The kinds of the chain are those of which a schema is a subkind, and these are ordered.
  subkinds : ∀ s ∈ r.schemas, ∀ kind, s.isSubkindOf kind = true ↔ kind ∈ s.chain.map Schema.kind
  reflexive : ∀ s ∈ r.schemas, s.isSubkindOf s.kind = true
  antisymmetric : ∀ a ∈ r.schemas, ∀ b ∈ r.schemas, a.isSubkindOf b.kind = true → b.isSubkindOf a.kind = true → a = b
  transitive : ∀ a ∈ r.schemas, ∀ b ∈ r.schemas, ∀ c ∈ r.schemas, a.isSubkindOf b.kind = true →
    b.isSubkindOf c.kind = true → a.isSubkindOf c.kind = true
  -- The fields of a kind begin those of its subkinds, so a position among them means the same field there.
  begins : ∀ a ∈ r.schemas, ∀ b ∈ r.schemas, a.isSubkindOf b.kind = true → b.fields <+: a.fields ∧
    (∀ (index : Nat) f, b.fields[index]? = some f → a.fields[index]? = some f) ∧
    ∀ name index, b.fieldIndex? name = some index → a.fieldIndex? name = some index

namespace Sound

theorem kinds_apart (sound : r.Sound) (member : s ∈ r.schemas) : (s.chain.map Schema.kind).Nodup := by
  refine List.pairwise_map.mpr ((sound.chain_ordered member).imp fun {t u} before same => ?_)
  rw [position, position, same] at before
  exact Nat.lt_irrefl _ before

theorem lookup (sound : r.Sound) (member : s ∈ r.schemas) (name : String) :
    s.resolve? name = (s.fieldIndex? name).bind (s.fields[·]?) ∧
      (s.resolve? name).isSome = (s.fieldIndex? name).isSome := by
  rw [sound.resolve_find member]
  exact ⟨List.find?_eq_bind_findIdx?_getElem?, by simp [Schema.fieldIndex?, List.isSome_find?]⟩

theorem antisymmetric (sound : r.Sound) (first : a ∈ r.schemas) (second : b ∈ r.schemas)
    (below : a.isSubkindOf b.kind = true) (above : b.isSubkindOf a.kind = true) : a = b := by
  have lower := (sound.chain_member first ((sound.subkind_above first second).mp below)).2
  have upper := (sound.chain_member second ((sound.subkind_above second first).mp above)).2
  refine sound.unique first second ?_
  exact (List.idxOf_inj (List.mem_map_of_mem first)).mp (Nat.le_antisymm upper lower)

theorem begins (sound : r.Sound) (first : a ∈ r.schemas) (second : b ∈ r.schemas)
    (below : a.isSubkindOf b.kind = true) : b.fields <+: a.fields ∧
      (∀ (index : Nat) f, b.fields[index]? = some f → a.fields[index]? = some f) ∧
      ∀ name index, b.fieldIndex? name = some index → a.fieldIndex? name = some index := by
  have start := sound.chain_begins first ((sound.subkind_above first second).mp below)
  obtain ⟨rest, whole⟩ := start
  refine ⟨⟨rest, whole⟩, fun index f found => ?_, fun name index found => ?_⟩
  · obtain ⟨bound, -⟩ := List.getElem?_eq_some_iff.mp found
    rw [← whole, List.getElem?_append_left bound, found]
  · rw [Schema.fieldIndex?] at found ⊢
    rw [← whole, List.findIdx?_append, found, Option.some_or]

end Sound

-- However a registry was made: inheritance in it is what it should be.
theorem grown_coherent (grown : r.Grown) : r.Coherent := by
  have sound := grown_sound grown
  exact {
    registered := fun s member t above => sound.get (sound.chain_member member above).1
    backwards := fun s member => sound.chain_ordered member
    apart := fun s member => sound.kinds_apart member
    fields := fun s member => sound.chain_fields member
    names := fun s member => (sound.inherits s member).distinct
    lookup := fun s member => sound.lookup member
    subkinds := fun s _ kind => by rw [Schema.subkind_chain, List.mem_map]
    reflexive := fun s _ => s.self_subkind
    antisymmetric := fun a first b second => sound.antisymmetric first second
    transitive := fun a first b second c third below above =>
      (sound.subkind_above first third).mpr (Schema.chain_trans ((sound.subkind_above first second).mp below)
        ((sound.subkind_above second third).mp above))
    begins := fun a first b second => sound.begins first second }

def returns : SchemaTable :=
  ⟨[⟨"stmt", none, []⟩, ⟨"Return", some "stmt", [⟨"value", "expr", "optional"⟩]⟩]⟩

def statements : Schema := ⟨"stmt", none, [], 0, 0⟩

def returning : Schema := ⟨"Return", some statements, [⟨"value", .kind "expr", .optional⟩], 0, 0⟩

def guarded : Schema :=
  ⟨"Guarded", some returning, [⟨"value", .kind "expr", .optional⟩, ⟨"guard", .kind "expr", .required⟩], 1, 0⟩

theorem returns_coherent :
    ((offer ⟨0, [statements, returning]⟩ guarded).offer statements).Grown ∧
    ((offer ⟨0, [statements, returning]⟩ guarded).offer statements).Coherent := by
  have loaded : ofTable 0 returns = .ok ⟨0, [statements, returning]⟩ := rfl
  have added : Grown (offer ⟨0, [statements, returning]⟩ guarded) :=
    .derived (.table loaded) (List.mem_cons_of_mem _ (List.mem_cons_self ..))
      (show Schema.derived 0 "Guarded" returning [⟨"guard", .kind "expr", .required⟩] = .ok guarded from rfl)
  have refused : Grown ((offer ⟨0, [statements, returning]⟩ guarded).offer statements) :=
    .root added (show Schema.root 0 "stmt" [] = .ok statements from rfl)
  exact ⟨refused, grown_coherent refused⟩

end Registry

end TreeLowering
