import ItemMapper.Proofs.Expression.Denotation
import ItemMapper.Proofs.Expression.Unambiguous
import ItemMapper.Proofs.Plain.Operands

/-!
# Addressing declared attributes

A chain of declared attributes leads from the outermost document into a document that one of the
candidate types of each attribute stands for (`Frame.Leads`).  Its names, joined by dots, are a path,
but the path need not lead along the chain: a number after the first name is a position, and each
name is looked up in the first of the documents that knows it, by its alias too.
`Mapper.addresses_iff` says exactly which chains are compiled to their own names
(`Frame.Finds`).  They are all those without numbers if the documents that one attribute can be
have no names in common (`Scope.TellsDocuments`).
-/

namespace ItemMapper

variable {σ : Type}

/-! ## The documents of an attribute -/

/-- The schema has an attribute of this name or with this alias. -/
def SchemaOf.knows (schema : Schema σ) (name : String) : Bool :=
  (schema.nativeAttribute? name).isSome

/-- The documents that the values of an attribute can be, in the order of its types. -/
def Frame.documents (frame : Frame σ) (field : Attribute σ) : List (Frame σ) :=
  field.types.filterMap (frame.scope.enter? (frame.place.child field.name))

/-- Names lead from some documents on to attributes of just these names.  Each name is looked up in
the first of the documents that knows it, and found there as a stored name.  If none of them knows
it, the first one has to keep all that is left of the names as undeclared data. -/
inductive Frame.Finds : List (Frame σ) → List String → Prop
  | nil {frames : List (Frame σ)} : Finds frames []
  | declared {frames : List (Frame σ)} {frame : Frame σ} {field : Attribute σ} {rest : List String}
      (hfirst : frames.find? (·.schema.knows field.name) = some frame)
      (hfield : frame.schema.nativeAttribute? field.name = some field)
      (hrest : Finds (frame.documents field) rest) : Finds frames (field.name :: rest)
  | kept {frames : List (Frame σ)} {frame : Frame σ} {name : String} {rest : List String}
      (hfirst : frames.head? = some frame) (hnone : ∀ other ∈ frames, other.schema.knows name = false)
      (hkept : frame.scope.unknownMatch (rest.foldl Place.child (frame.place.child name)) = .full) :
      Finds frames (name :: rest)

/-- The documents that the values of one attribute can be have no names in common. -/
def Scope.TellsDocuments (start : Scope σ) : Prop :=
  ∀ frame : Frame σ, start.Reaches frame.scope frame.schema →
    ∀ field ∈ frame.schema.attributes,
      (frame.documents field).Pairwise fun first second =>
        ∀ name, ¬ (first.schema.knows name = true ∧ second.schema.knows name = true)

namespace SchemaOf

theorem knows_eq_false_iff {schema : Schema σ} {name : String} :
    schema.knows name = false ↔ schema.nativeAttribute? name = none := by
  simp [knows]

theorem knows_of_nativeAttribute? {schema : Schema σ} {name : String} {field : Attribute σ}
    (hfield : schema.nativeAttribute? name = some field) : schema.knows name = true := by
  simp [knows, hfield]

end SchemaOf

theorem PathPosition.descend?_eq_some_iff {scope : Scope σ} {place : Place}
    {types : List (CandidateType σ)} {part : String} {frame : Frame σ} :
    descend? scope place types part = some frame ↔
      (types.filterMap (scope.enter? place)).find? (·.schema.knows part) = some frame ∨
        (∀ other ∈ types.filterMap (scope.enter? place), other.schema.knows part = false) ∧
          (types.filterMap (scope.enter? place)).head? = some frame := by
  rw [descend?, Option.or_eq_some_iff, List.find?_eq_none]
  simp only [SchemaOf.knows, Bool.not_eq_true]

/-! ## Names that denote themselves -/

/-- Undeclared parts are names exactly if they are no numbers. -/
theorem Segment.map_ofUndeclared_iff {parts : List String} :
    parts.map .ofUndeclared = parts.map Segment.name ↔
      ∀ part ∈ parts, Decimal.parseIndex? part = none := by
  rw [List.map_inj_left]
  refine forall₂_congr fun part _ => ?_
  rw [ofUndeclared]
  cases Decimal.parseIndex? part <;> simp

namespace Frame

variable {frames : List (Frame σ)} {frame : Frame σ} {name : String} {rest : List String}

theorem finds_singleton_iff :
    Finds [frame] (name :: rest) ↔
      (∃ field, frame.schema.nativeAttribute? name = some field ∧ field.name = name ∧
        Finds (frame.documents field) rest) ∨
      (frame.schema.nativeAttribute? name = none ∧
        frame.scope.unknownMatch (rest.foldl Place.child (frame.place.child name)) = .full) := by
  constructor
  · intro hfinds
    cases hfinds with
    | @declared _ other field _ hfirst hfield hrest =>
        obtain rfl : other = frame := List.mem_singleton.mp (List.mem_of_find?_eq_some hfirst)
        exact .inl ⟨field, hfield, rfl, hrest⟩
    | kept hfirst hnone hkept =>
        obtain rfl := Option.some.inj hfirst
        exact .inr ⟨SchemaOf.knows_eq_false_iff.mp (hnone _ (List.mem_singleton_self _)), hkept⟩
  · rintro (⟨field, hfield, rfl, hrest⟩ | ⟨hnone, hkept⟩)
    · have hknows := SchemaOf.knows_of_nativeAttribute? hfield
      exact .declared (by simp [hknows]) hfield hrest
    · exact .kept rfl (by simpa using SchemaOf.knows_eq_false_iff.mpr hnone) hkept

/-- Only the document that is gone on in matters. -/
theorem finds_iff_exists :
    Finds frames (name :: rest) ↔
      ∃ frame, (frames.find? (·.schema.knows name) = some frame ∨
        (∀ other ∈ frames, other.schema.knows name = false) ∧ frames.head? = some frame) ∧
          Finds [frame] (name :: rest) := by
  constructor
  · intro hfinds
    cases hfinds with
    | @declared _ frame field _ hfirst hfield hrest =>
        exact ⟨frame, .inl hfirst, finds_singleton_iff.mpr (.inl ⟨field, hfield, rfl, hrest⟩)⟩
    | @kept _ frame _ _ hfirst hnone hkept =>
        have hmem := List.mem_of_mem_head? (Option.mem_def.mpr hfirst)
        exact ⟨frame, .inr ⟨hnone, hfirst⟩, finds_singleton_iff.mpr
          (.inr ⟨SchemaOf.knows_eq_false_iff.mp (hnone _ hmem), hkept⟩)⟩
  · rintro ⟨frame, hfirst, hfinds⟩
    rcases finds_singleton_iff.mp hfinds with ⟨field, hfield, rfl, hrest⟩ | ⟨hunknown, hkept⟩
    · have hknows := SchemaOf.knows_of_nativeAttribute? hfield
      rcases hfirst with hfind | ⟨hnone, hhead⟩
      · exact .declared hfind hfield hrest
      · rw [hnone _ (List.mem_of_mem_head? (Option.mem_def.mpr hhead))] at hknows
        cases hknows
    · rcases hfirst with hfind | ⟨hnone, hhead⟩
      · have hknows : frame.schema.knows name = true := by simpa using List.find?_some hfind
        rw [SchemaOf.knows_eq_false_iff.mpr hunknown] at hknows
        cases hknows
      · exact .kept hhead hnone hkept

end Frame

namespace PathPosition

variable {frame : Frame σ} {name : String} {rest : List String}

/-- In a value a name that is no number is looked for in its documents. -/
theorem denotes_value_cons_iff {scope : Scope σ} {place : Place} {types : List (CandidateType σ)} :
    (value scope place types).Denotes (name :: rest) ((name :: rest).map .name) ↔
      Decimal.parseIndex? name = none ∧ ∃ frame, descend? scope place types name = some frame ∧
        (document frame).Denotes (name :: rest) ((name :: rest).map .name) := by
  constructor
  · intro hdenotes
    cases hdenotes with
    | inside hindex hdescend hrest => exact ⟨hindex, _, hdescend, hrest⟩
  · rintro ⟨hindex, frame, hdescend, hrest⟩
    exact .inside hindex hdescend hrest

/-- In a document the rest of the names is looked for in the attribute of the first one. -/
theorem denotes_document_cons_iff (hname : name ≠ "")
    (hvalue : ∀ field : Attribute σ,
      (value frame.scope (frame.place.child name) field.types).Denotes rest (rest.map .name) ↔
        (∀ part ∈ rest, Decimal.parseIndex? part = none) ∧
          Frame.Finds (field.types.filterMap (frame.scope.enter? (frame.place.child name))) rest) :
    (document frame).Denotes (name :: rest) ((name :: rest).map .name) ↔
      (∀ part ∈ rest, Decimal.parseIndex? part = none) ∧ Frame.Finds [frame] (name :: rest) := by
  rw [Frame.finds_singleton_iff]
  constructor
  · intro hdenotes
    generalize hsegments : (name :: rest).map Segment.name = segments at hdenotes
    cases hdenotes with
    | @declared _ field _ _ _ _ hfield hrest =>
        obtain ⟨hsame, rfl⟩ := List.cons.inj hsegments
        obtain rfl := Segment.name.inj hsame
        obtain ⟨hplain, hfinds⟩ := (hvalue field).mp hrest
        exact ⟨hplain, .inl ⟨field, hfield, rfl, hfinds⟩⟩
    | undeclared _ hnone hkept =>
        obtain ⟨-, hrest⟩ := List.cons.inj hsegments
        exact ⟨Segment.map_ofUndeclared_iff.mp hrest.symm, .inr ⟨hnone, hkept⟩⟩
  · rintro ⟨hplain, ⟨field, hfield, rfl, hfinds⟩ | ⟨hnone, hkept⟩⟩
    · exact .declared hname hfield ((hvalue field).mpr ⟨hplain, hfinds⟩)
    · rw [List.map_cons, ← Segment.map_ofUndeclared_iff.mpr hplain]
      exact .undeclared hname hnone hkept

/-- Names denote themselves in a value if they are no numbers and are found there. -/
theorem denotes_value_iff (names : List String) (hnames : ∀ name ∈ names, name ≠ "") :
    ∀ {scope : Scope σ} {place : Place} {types : List (CandidateType σ)},
      (value scope place types).Denotes names (names.map .name) ↔
        (∀ name ∈ names, Decimal.parseIndex? name = none) ∧
          Frame.Finds (types.filterMap (scope.enter? place)) names := by
  induction names with
  | nil =>
      intro scope place types
      exact ⟨fun _ => ⟨by simp, .nil⟩, fun _ => .nil⟩
  | cons name rest ih =>
      intro scope place types
      obtain ⟨hname, hrest⟩ := List.forall_mem_cons.mp hnames
      have hdocument : ∀ frame : Frame σ,
          (document frame).Denotes (name :: rest) ((name :: rest).map .name) ↔
            (∀ part ∈ rest, Decimal.parseIndex? part = none) ∧ Frame.Finds [frame] (name :: rest) :=
        fun _ => denotes_document_cons_iff hname fun _ => ih hrest
      simp only [denotes_value_cons_iff, descend?_eq_some_iff, hdocument, List.forall_mem_cons]
      rw [Frame.finds_iff_exists]
      constructor
      · rintro ⟨hindex, frame, hfirst, hplain, hfinds⟩
        exact ⟨⟨hindex, hplain⟩, frame, hfirst, hfinds⟩
      · rintro ⟨⟨hindex, hplain⟩, frame, hfirst, hfinds⟩
        exact ⟨hindex, frame, hfirst, hplain, hfinds⟩

/-- Names denote themselves in a document if only the first one may be a number and they are found
there. -/
theorem denotes_document_iff {names : List String} (hne : names ≠ [])
    (hnames : ∀ name ∈ names, name ≠ "") :
    (document frame).Denotes names (names.map .name) ↔
      (∀ name ∈ names.tail, Decimal.parseIndex? name = none) ∧ Frame.Finds [frame] names := by
  obtain ⟨name, rest, rfl⟩ := List.exists_cons_of_ne_nil hne
  obtain ⟨hname, hrest⟩ := List.forall_mem_cons.mp hnames
  exact denotes_document_cons_iff hname fun _ => denotes_value_iff rest hrest

end PathPosition

/-! ## Chains of attributes -/

/-- Of items that exclude each other the one that is looked for is found. -/
theorem List.find?_eq_some_of_pairwise {α : Type} {items : List α} {item : α} {test : α → Bool}
    (hapart : items.Pairwise fun first second => ¬ (test first = true ∧ test second = true))
    (hitem : item ∈ items) (htest : test item = true) : items.find? test = some item := by
  induction items with
  | nil => cases hitem
  | cons first rest ih =>
      obtain ⟨hfirst, hrest⟩ := List.pairwise_cons.mp hapart
      rcases List.mem_cons.mp hitem with rfl | hitem
      · rw [List.find?_cons_of_pos htest]
      · rw [List.find?_cons_of_neg fun hbefore => hfirst item hitem ⟨hbefore, htest⟩,
          ih hrest hitem]

namespace Frame.Leads

variable {start scope : Scope σ} {frame : Frame σ} {names : List String} {place : Place}
  {types : List (CandidateType σ)}

theorem usable (hbuilt : ∀ scope schema, start.Reaches scope schema → schema.WellFormed)
    (hleads : frame.Leads names scope place types)
    (hreaches : start.Reaches frame.scope frame.schema) :
    ∀ name ∈ names, SchemaOf.isUsableName name = true := by
  induction hleads with
  | last hfield =>
      obtain ⟨hmem, rfl⟩ := SchemaOf.mem_of_attribute? hfield
      simpa using (hbuilt _ _ hreaches).usable _ hmem
  | inside hfield htype henter _ ih =>
      obtain ⟨hmem, rfl⟩ := SchemaOf.mem_of_attribute? hfield
      exact List.forall_mem_cons.mpr ⟨(hbuilt _ _ hreaches).usable _ hmem,
        ih (reaches_inside hreaches hfield htype henter)⟩

/-- If documents have no names in common, the chain is followed. -/
theorem finds (hbuilt : ∀ scope schema, start.Reaches scope schema → schema.WellFormed)
    (happart : start.TellsDocuments) (hleads : frame.Leads names scope place types)
    (hreaches : start.Reaches frame.scope frame.schema) : Frame.Finds [frame] names := by
  induction hleads with
  | @last frame _ field hfield =>
      obtain ⟨hmem, rfl⟩ := SchemaOf.mem_of_attribute? hfield
      have hfound := (hbuilt _ _ hreaches).nativeAttribute?_name hmem
      exact finds_singleton_iff.mpr (.inl ⟨field, hfound, rfl, .nil⟩)
  | @inside frame inner _ field type rest _ _ _ hfield htype henter hrest ih =>
      obtain ⟨hmem, rfl⟩ := SchemaOf.mem_of_attribute? hfield
      have hinside := reaches_inside hreaches hfield htype henter
      have hfound := (hbuilt _ _ hreaches).nativeAttribute?_name hmem
      refine finds_singleton_iff.mpr (.inl ⟨field, hfound, rfl, ?_⟩)
      -- the next document is the only one that knows the next name
      obtain ⟨name, more, next, rfl, hnext⟩ := hrest.exists_cons
      obtain ⟨hnextMem, rfl⟩ := SchemaOf.mem_of_attribute? hnext
      have hknows : inner.schema.knows next.name = true := SchemaOf.knows_of_nativeAttribute?
        ((hbuilt _ _ hinside).nativeAttribute?_name hnextMem)
      have hinner : inner ∈ frame.documents field := List.mem_filterMap.mpr ⟨type, htype, henter⟩
      have hfirst : (frame.documents field).find? (·.schema.knows next.name) = some inner := by
        refine List.find?_eq_some_of_pairwise ?_ hinner hknows
        exact (happart frame hreaches field hmem).imp fun hnever => hnever next.name
      exact finds_iff_exists.mpr ⟨inner, .inl hfirst, ih hinside⟩

end Frame.Leads

/-! ## Conditions -/

/-- The condition that there is something under a path. -/
def Condition.presence (path : String) : Condition :=
  ⟨⟨[.comparison ⟨path, .present, []⟩], []⟩, none, false, none⟩

theorem Condition.compare_present (path : String) :
    (empty.on path).compare .present [] = .ok (presence path) :=
  rfl

/-- To ask for something under the path of some names compiles, and with the placeholders looked up
the text asks for just these names. -/
def Mapper.Addresses (mapper : Mapper σ) (names : List String) : Prop :=
  ∃ condition compiled,
    (Condition.empty.on (Dotted.join names)).compare .present [] = .ok condition ∧
    mapper.condition condition = .ok compiled ∧
    compiled.symbols = Symbol.ofText "attribute_exists(" ++
      (Symbol.ofPath (names.map .name) ++ Symbol.ofText ")")

theorem Scope.test_present_eq_ok {scope : Scope σ} {path : String} {test : Test} :
    scope.test ⟨path, .present, []⟩ = .ok test ↔
      ∃ target, scope.lookup path = .ok target ∧ test = ⟨target.segments, .present, []⟩ := by
  rw [Scope.test, Except.bind_eq_ok]
  refine exists_congr fun target => and_congr_right fun _ => ?_
  show Except.ok (⟨target.segments, .present, []⟩ : Test) = .ok test ↔ _
  rw [Except.ok.injEq, eq_comm]

theorem Test.symbols_present (segments : List Segment) :
    Test.symbols ⟨segments, .present, []⟩ = Symbol.ofText "attribute_exists(" ++
      (Symbol.ofPath segments ++ Symbol.ofText ")") := by
  simp [symbols, Operator.opening, Operator.sign, Operator.closing, Symbol.ofMembers,
    Symbol.ofText]

/-- This is so exactly if the path is found at the names. -/
theorem Mapper.addresses_iff_lookup {mapper : Mapper σ} {names : List String} (hne : names ≠ []) :
    mapper.Addresses names ↔ ∃ target, mapper.scope.lookup (Dotted.join names) = .ok target ∧
      target.segments = names.map .name := by
  have hasked : (⟨names.map .name, .present, []⟩ : Test).WellFormed := by
    obtain ⟨name, rest, rfl⟩ := List.exists_cons_of_ne_nil hne
    exact ⟨rfl, name, _, rfl⟩
  have hshows : ∀ {test : Test}, test.WellFormed →
      (CompiledExpression.ofPieces test.pieces).symbols = test.symbols := fun htest => by
    rw [CompiledExpression.symbols_ofPieces htest.spaced, Test.symbols_pieces htest]
  rw [Addresses]
  simp only [Condition.compare_present, Except.ok.injEq, exists_and_left, exists_eq_left', condition,
    Condition.presence, Scope.compileCondition_comparison_eq_ok]
  constructor
  · rintro ⟨_, ⟨test, htest, rfl⟩, hsymbols⟩
    have hformed := Scope.wellFormed_of_test htest
    obtain ⟨target, hlookup, rfl⟩ := Scope.test_present_eq_ok.mp htest
    refine ⟨target, hlookup, ?_⟩
    rw [hshows hformed, ← Test.symbols_present] at hsymbols
    obtain ⟨hsame, -⟩ := Test.symbols_inj hformed hasked (congrArg (· ++ []) hsymbols)
    exact (Test.mk.inj hsame).1
  · rintro ⟨target, hlookup, hsegments⟩
    refine ⟨_, ⟨_, Scope.test_present_eq_ok.mpr ⟨target, hlookup, rfl⟩, rfl⟩, ?_⟩
    rw [hsegments, hshows hasked, Test.symbols_present]

/-- A chain of declared attributes is addressed by its names exactly if none of them but the first
is a number and they are found in the first documents that know them.  They are found there if the
documents that an attribute can be have no names in common. -/
theorem Mapper.addresses_iff {mapper : Mapper σ}
    (hbuilt : ∀ scope schema, mapper.scope.Reaches scope schema → schema.WellFormed)
    {names : List String} {scope : Scope σ} {place : Place} {types : List (CandidateType σ)}
    (hleads : mapper.scope.frame.Leads names scope place types) :
    (mapper.Addresses names ↔
      (∀ name ∈ names.tail, Decimal.parseIndex? name = none) ∧
        Frame.Finds [mapper.scope.frame] names) ∧
      (mapper.scope.TellsDocuments → Frame.Finds [mapper.scope.frame] names) := by
  have husable := hleads.usable hbuilt .root
  have hne : names ≠ [] := by
    obtain ⟨name, rest, -, rfl, -⟩ := hleads.exists_cons
    simp
  have hsplit : Dotted.split (Dotted.join names) = names :=
    Dotted.split_join hne fun name hname => SchemaOf.plain_of_usable (husable name hname)
  refine ⟨?_, fun happart => hleads.finds hbuilt happart .root⟩
  rw [addresses_iff_lookup hne, Scope.lookup_iff, hsplit]
  exact PathPosition.denotes_document_iff hne fun name hname =>
    SchemaOf.ne_empty_of_usable (husable name hname)

/-! ## Orders and archives -/

theorem Mapper.tellsDocuments_orders : orders.scope.TellsDocuments := by
  intro frame hreaches field hfield
  obtain ⟨type, htype⟩ := navigable_orders.oneType _ _ hreaches field hfield
  rw [Frame.documents, htype]
  cases henter : frame.scope.enter? (frame.place.child field.name) type <;> simp [henter]

/-- The name of a customer by whom the customer of an order was referred. -/
theorem Mapper.addresses_orders : orders.Addresses ["customer", "referrer", "name"] := by
  obtain ⟨scope, place, types, hleads⟩ : ∃ scope place types,
      orders.scope.frame.Leads ["customer", "referrer", "name"] scope place types :=
    ⟨_, _, _, .inside rfl (.head _) rfl (.inside rfl (.head _) rfl (.last rfl))⟩
  obtain ⟨hiff, hfinds⟩ := addresses_iff navigable_orders.wellFormed hleads
  exact hiff.mpr ⟨by decide, hfinds tellsDocuments_orders⟩

/-- A document with a single attribute. -/
def SchemaOf.holding (field : Attribute Unit) : Schema Unit :=
  ⟨[field], .disabled, none⟩

/-- An archive counts its visits year by year.  Its owner has a home with a street or one in a city,
and its keeper has a title, which is also called the name, or a name. -/
def SchemaOf.archive : Schema Unit where
  attributes := [.plain "id" [.primitive .string],
    .plain "visits" [.object (holding (.plain "2024" [.primitive .number]))],
    .plain "owner" [
      .object (holding (.plain "home" [.object (holding (.plain "street" [.primitive .string]))])),
      .object (holding (.plain "home" [.object (holding (.plain "city" [.primitive .string]))]))],
    .plain "keeper" [
      .object (holding
        { AttributeOf.plain "title" [.primitive .string] with nativeAlias := some "name" }),
      .object (holding (.plain "name" [.primitive .string]))]]
  keepUnknown := .disabled
  timestamps := none

theorem SchemaOf.build_archive : build archive.attributes .disabled none = .ok archive :=
  rfl

/-- The mapper of the only model, which has the schema `SchemaOf.archive`. -/
def Mapper.archive : Mapper Unit :=
  ⟨⟨[⟨"Archive", .archive, none⟩]⟩, ⟨"Archive", .archive, none⟩⟩

/-- A year is taken for a position, the city is looked for in the home with a street, and the name
of a keeper is looked up as a title. -/
theorem Mapper.archive_not_addressed :
    (∃ scope place types, archive.scope.frame.Leads ["visits", "2024"] scope place types) ∧
      (∃ scope place types, archive.scope.frame.Leads ["owner", "home", "city"] scope place types) ∧
      (∃ scope place types, archive.scope.frame.Leads ["keeper", "name"] scope place types) ∧
      ¬ archive.Addresses ["visits", "2024"] ∧ ¬ archive.Addresses ["owner", "home", "city"] ∧
      ¬ archive.Addresses ["keeper", "name"] := by
  have hlookup : ∀ names : List String, names ≠ [] →
      (archive.scope.lookup (Dotted.join names)).toOption.map ResolvedPath.segments ≠
        some (names.map .name) → ¬ archive.Addresses names := by
    intro names hne hother haddresses
    obtain ⟨target, htarget, hsegments⟩ := (addresses_iff_lookup hne).mp haddresses
    rw [htarget] at hother
    exact hother (congrArg some hsegments)
  refine ⟨⟨_, _, _, .inside rfl (.head _) rfl (.last rfl)⟩,
    ⟨_, _, _, .inside rfl (.tail _ (.head _)) rfl (.inside rfl (.head _) rfl (.last rfl))⟩,
    ⟨_, _, _, .inside rfl (.tail _ (.head _)) rfl (.last rfl)⟩, ?_, ?_, ?_⟩
  · exact hlookup _ (by simp) (by decide +kernel)
  · exact hlookup _ (by simp) (by decide +kernel)
  · exact hlookup _ (by simp) (by decide +kernel)

end ItemMapper
