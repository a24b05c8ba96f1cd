import ItemMapper.Proofs.Lasting.Values
import ItemMapper.Proofs.Plain.Agreement
import ItemMapper.Proofs.Spelling.Requests
import ItemMapper.Proofs.Spelling.Scores
import ItemMapper.Proofs.Spelling.Written

/-!
# Documents in other spellings

A document may name its attributes by alias or by stored name.  At the top this makes no difference:
documents are first put under stored names (`Scope.write_of_normalized_eq`).  Values inside are looked
at as they are, however: they are typed, compared and encoded as keys before their fields get stored
names.  Two spellings give the same item and the same key if no pattern of undeclared data tells
them apart, if attributes are not compared with values that have parts, and if the order of fields
has no effect on types (`Mapper.agree_documents`).
-/

namespace ItemMapper

open Pipeline

variable {σ : Type}

/-! ## Attributes that see no spelling -/

/-- A value without items or fields; a set counts as one value. -/
def Value.isFlat : Value → Bool
  | .list _ | .map _ => false
  | _ => true

/-- Neither a document nor its spelling has an effect on such a default. -/
def DefaultValue.isFixed : DefaultValue σ → Bool
  | .literal _ | .expiry _ => true
  | .immediate _ | .deferred _ => false

/-- A condition that calls no function and compares with no list or map. -/
def Validator.isFlat : Validator σ → Bool
  | .equals expected => expected.isFlat
  | .pattern _ => true
  | .immediate _ | .deferred _ => false

/-- Writing the attribute calls no function of the application, and its values are compared with no
list or map. -/
structure AttributeOf.Unhooked (field : Attribute σ) : Prop where
  noModifiers : field.writeModifiers = []
  fixedDefault : ∀ default, field.defaultValue = some default → default.isFixed = true
  flatValidator : ∀ validator, field.validator = some validator → validator.isFlat = true
  flatAllowed : ∀ allowed, field.allowed = some allowed → ∀ value ∈ allowed, value.isFlat = true

theorem Value.SameForm.beq_eq {value other expected : Value} (hform : value.SameForm other)
    (hflat : expected.isFlat = true) : (expected == other) = (expected == value) := by
  cases hform with
  | same => rfl
  | list => cases expected <;> first | rfl | cases hflat
  | map => cases expected <;> first | rfl | cases hflat

theorem Value.SameForm.string? {value other : Value} (hform : value.SameForm other) :
    other.string? = value.string? := by
  cases hform <;> rfl

namespace AttributeOf.Unhooked

variable {field : Attribute σ} (hfield : field.Unhooked)

include hfield

/-- Values of the same form pass the same checks. -/
theorem agree_check {value other : Value} (hform : value.SameForm other) (options : MarshalOptions)
    (path path' : String) : Pipeline.Agree Eq (checkValue options field value path)
      (checkValue options field other path') := by
  refine agree_checkValue (fun allowed hallowed => ?_) (fun validator hvalidator => ?_) path path'
  · have hflat := hfield.flatAllowed allowed hallowed
    clear hallowed
    induction allowed with
    | nil => rfl
    | cons expected rest ih =>
        rw [List.forall_mem_cons] at hflat
        rw [List.any_cons, List.any_cons, hform.beq_eq hflat.1, ih hflat.2]
  · have hflat := hfield.flatValidator validator hvalidator
    cases validator with
    | equals expected => simp only [Validator.check, hform.beq_eq hflat]
    | pattern expression => simp only [Validator.check, hform.string?]
    | immediate => cases hflat
    | deferred => cases hflat

theorem agree_default (now : Instant) (document other : Document) (path path' : String) :
    Pipeline.Agree Eq (evaluateDefault now field document path)
      (evaluateDefault now field other path') := by
  have hsame : evaluateDefault now field other path' = evaluateDefault now field document path' := by
    unfold evaluateDefault
    cases hdefault : field.defaultValue with
    | none => rfl
    | some default =>
        have hfixed := hfield.fixedDefault default hdefault
        cases default with
        | literal | expiry => rfl
        | immediate | deferred => cases hfixed
  rw [hsame]
  exact agree_evaluateDefault now field document path path'

end AttributeOf.Unhooked

/-! ## Links between spellings -/

namespace Scope

/-- The order of fields has no effect on types, of any attribute and of the items of any list that
can be reached. -/
structure Decisive (start : Scope σ) : Prop where
  attributes : ∀ scope schema, start.Reaches scope schema → ∀ field ∈ schema.attributes,
    scope.Decided field.types
  elements : ∀ scope elements, start.Uses scope (.array elements) → scope.Decided elements

/-- Two values are the same, or differ in spelling.  If fields may be in another order, this has no
effect on the type that is chosen. -/
def Respelled (reorders : Prop) : ValueLink σ := fun scope types value other =>
  other = value ∨ scope.Respells reorders types value other ∧
    (reorders → scope.Decided types ∧ value.Light ∧ other.Light)

variable {reorders : Prop} {scope : Scope σ}

theorem Respelled.sameForm {types : List (CandidateType σ)} {value other : Value}
    (hrespelled : Respelled reorders scope types value other) : value.SameForm other := by
  rcases hrespelled with rfl | ⟨hrespells, -⟩
  · exact .same
  · exact hrespells.sameForm

theorem RespellsItems.forall₂ {elements : List (CandidateType σ)} {related : Value → Value → Prop}
    {items others : List Value} (hitems : scope.RespellsItems reorders elements items others)
    (hrelated : ∀ item ∈ items, ∀ other ∈ others, scope.Respells reorders elements item other →
      related item other) : List.Forall₂ related items others := by
  induction items generalizing others with
  | nil => cases hitems; exact .nil
  | cons item rest ih =>
      cases hitems with
      | cons hitem hrest =>
          refine .cons (hrelated _ (List.mem_cons_self ..) _ (List.mem_cons_self ..) hitem)
            (ih hrest fun item hitem other hother => ?_)
          exact hrelated item (List.mem_cons_of_mem _ hitem) other (List.mem_cons_of_mem _ hother)

/-- Fields that differ in spelling are linked one by one, at the same spots. -/
theorem RespellsFields.forall₂ {reach : Reach σ} {schema : Schema σ} {linked : ValueLink σ}
    {fields renamed : List (String × Value)} (hreaches : reach.schemas scope schema)
    (hfields : scope.RespellsFields reorders schema fields renamed)
    (hlinked : ∀ field ∈ fields, ∀ other ∈ renamed, ∀ declared ∈ schema.attributes,
      scope.Respells reorders declared.types field.2 other.2 →
        linked scope declared.types field.2 other.2) :
    List.Forall₂ (linked.Field reach.SameSpot scope schema) fields renamed := by
  induction fields generalizing renamed with
  | nil => cases hfields; exact .nil
  | cons field rest ih =>
      have hrest : ∀ {other : String × Value} {others : List (String × Value)},
          renamed = other :: others → scope.RespellsFields reorders schema rest others →
            List.Forall₂ (linked.Field reach.SameSpot scope schema) rest others := by
        rintro other others rfl hothers
        refine ih hothers fun field hfield last hlast => ?_
        exact hlinked field (List.mem_cons_of_mem _ hfield) last (List.mem_cons_of_mem _ hlast)
      cases hfields with
      | undeclared hkey hothers =>
          refine .cons ⟨fun hplaces => hplaces.child _, rfl, fun declared hdeclared => ?_,
            fun _ => rfl⟩ (hrest rfl hothers)
          rw [hkey] at hdeclared
          cases hdeclared
      | declared hkey hname hvalue hothers =>
          refine .cons ⟨fun hplaces => hplaces.declared hreaches hkey hname, hname.trans hkey.symm,
            fun declared hdeclared => ?_, fun hnone => ?_⟩ (hrest rfl hothers)
          · obtain rfl := Option.some.inj (hkey.symm.trans hdeclared)
            exact hlinked _ (List.mem_cons_self ..) _ (List.mem_cons_self ..) _
              (SchemaOf.mem_of_nativeAttribute? hkey) hvalue
          · rw [hkey] at hnone
            cases hnone

variable {start : Scope σ} (hdecisive : reorders → start.Decisive)

include hdecisive

/-- The fields of documents that differ in spelling are linked. -/
theorem RespellsFields.linked {schema : Schema σ} {fields renamed others : List (String × Value)}
    (hreaches : start.Reaches scope schema)
    (hfields : scope.RespellsFields reorders schema fields renamed)
    (horder : others = renamed ∨ others.Perm renamed ∧
      (fields.map fun field => schema.storedName field.1).Nodup)
    (hlight : reorders → (Value.map fields).Light ∧ (Value.map others).Light) :
    (Respelled reorders).Fields start.reach.SameSpot scope schema fields others := by
  refine ⟨renamed, hfields.forall₂ hreaches ?_, horder⟩
  intro field hfield other hother declared hdeclared hvalue
  refine .inr ⟨hvalue, fun hreorders => ?_⟩
  have hmem : other ∈ others := by
    rcases horder with rfl | ⟨hperm, -⟩
    · exact hother
    · exact hperm.mem_iff.mpr hother
  exact ⟨(hdecisive hreorders).attributes _ _ hreaches declared hdeclared,
    (hlight hreorders).1.field hfield, (hlight hreorders).2.field hmem⟩

/-- The parts of values that differ in spelling are linked, if the type takes such values. -/
theorem RespellsAs.linked {type : CandidateType σ} {value other : Value}
    (huses : start.Uses scope type) (hrespells : scope.RespellsAs reorders type value other)
    (hlight : reorders → value.Light ∧ other.Light) (htakes : value.typeName ∈ type.takes) :
    (Respelled reorders).Parts start.reach.SameSpot scope type value other := by
  cases hrespells with
  | same => exact .same
  | items hitems =>
      refine .items (hitems.forall₂ fun item hitem other hother hrespells => ?_)
      refine .inr ⟨hrespells, fun hreorders => ?_⟩
      exact ⟨(hdecisive hreorders).elements _ _ huses, (hlight hreorders).1.item hitem,
        (hlight hreorders).2.item hother⟩
  | members hmembers => exact .members hmembers
  | fields hopens hfields horder =>
      refine .fields hopens (hfields.linked hdecisive (.inside huses hopens) ?_ hlight)
      exact horder.imp id fun hreordered => hreordered.2
  | unfit _ hunfit => exact absurd htakes hunfit

/-- Values that differ in spelling stand for the same data. -/
theorem links_respelled (hblind : start.reach.BlindTo start.reach.SameSpot) :
    start.reach.Links start.reach.SameSpot (Respelled reorders) where
  toBlindTo := hblind
  same := fun _ _ _ => .inl rfl
  form := Respelled.sameForm
  resolve := by
    rintro scope types value other near far huses (rfl | ⟨hrespells, hordered⟩) hplaces
    · exact (resolve_at hblind hplaces huses other).mono fun _ _ hsame => ⟨hsame, .same⟩
    · have hagree := agree_resolve_respelled hblind hrespells (fun h => (hordered h).1)
        (fun h => (hordered h).2.1) (fun h => (hordered h).2.2) huses hplaces
      obtain ⟨choice, counterpart, hchoice, hother, hsame⟩ | ⟨cause, last, hcause, hlast⟩ :=
        hagree.cases
      · rw [hchoice, hother]
        refine .ok ⟨hsame, ?_⟩
        cases hrespells with
        | same => exact .same
        | read hform hread =>
            obtain ⟨hmem, hpos⟩ := of_choose? (resolve_eq_ok_iff.mp hchoice)
            exact (hread near choice hmem).linked hdecisive hsame.reading.reached
              (fun hreorders => (hordered hreorders).2) (Value.mem_takes_of_score hpos)
      · rw [hcause, hlast]
        exact .error cause last

/-- They are written alike where no stage looks at the spelling. -/
theorem linksWriting_respelled (hblind : start.reach.BlindTo start.reach.SameSpot)
    (hunhooked : ∀ scope schema, start.Reaches scope schema → ∀ field ∈ schema.attributes,
      field.Unhooked) {writing : Writing} (hcheck : writing.options.typeCheck = true) :
    start.reach.LinksWriting start.reach.SameSpot (Respelled reorders) writing where
  toLinks := links_respelled hdecisive hblind
  natural := fun hoff => by rw [hcheck] at hoff; cases hoff
  check := fun hreaches field hfield _ _ hlinked path path' =>
    (hunhooked _ _ hreaches field hfield).agree_check hlinked.sameForm writing.options path path'
  modify := fun hreaches field hfield _ _ hlinked _ _ => by
    rw [(hunhooked _ _ hreaches field hfield).noModifiers]
    exact .pure hlinked
  default := fun hreaches field hfield document other _ path path' =>
    (hunhooked _ _ hreaches field hfield).agree_default writing.now document other path path'

end Scope

/-! ## The top of documents -/

/-- Documents that are the same under stored names are written in the same way. -/
theorem Frame.write_of_normalized_eq {frame : Frame σ} {document other : Document}
    (hsame : frame.schema.normalized other = frame.schema.normalized document) (writing : Writing) :
    frame.write writing other = frame.write writing document := by
  simp only [Frame.write, Drafts.write, Drafts.normalize_drafts, hsame]

/-- An attribute is found under its native name and its stored name only. -/
theorem SchemaOf.eq_or_eq_of_nativeAttribute? {schema : Schema σ} {key : String}
    {field : Attribute σ} (hfind : schema.nativeAttribute? key = some field) :
    key = field.nativeName ∨ key = field.name := by
  rw [nativeAttribute?, Option.or_eq_some_iff] at hfind
  rcases hfind with halias | ⟨-, hname⟩
  · have hnative : field.nativeAlias = some key := by simpa using List.find?_some halias
    exact .inl (by rw [AttributeOf.nativeName, hnative, Option.getD_some])
  · exact .inr (mem_of_attribute? hname).2.symm

/-- A document does not give two different values for the attribute. -/
def AttributeOf.Unambiguous (field : Attribute σ) (document : Document) : Prop :=
  ∀ value other, document.get? field.nativeName = some value →
    document.get? field.name = some other → value = other

namespace SchemaOf

variable {schema : Schema σ} {document : Document} {field : Attribute σ}

section Named

variable (hschema : schema.WellFormed)
  (hnative : schema.nativeAttribute? field.nativeName = some field)
  (hkeys : (document.map Prod.fst).Nodup)

include hschema hnative hkeys

/-- What is given for an attribute stands under its native name or its stored name. -/
theorem mem_named_iff (value : Value) :
    (field.name, value) ∈ document.map (fun entry => (schema.storedName entry.1, entry.2)) ↔
      document.get? field.nativeName = some value ∨ document.get? field.name = some value := by
  have hfield := mem_of_nativeAttribute? hnative
  have hnativeName : schema.storedName field.nativeName = field.name := by
    rw [storedName, hnative, Option.map_some, Option.getD_some]
  have hname : schema.storedName field.name = field.name := by
    rw [storedName, hschema.nativeAttribute?_name hfield, Option.map_some, Option.getD_some]
  rw [Fields.get?_eq_some_iff hkeys, Fields.get?_eq_some_iff hkeys, List.mem_map]
  constructor
  · rintro ⟨⟨key, found⟩, hmem, heq⟩
    obtain ⟨hkey, rfl⟩ := Prod.mk.inj heq
    rcases eq_or_eq_of_nativeAttribute? (hschema.nativeAttribute?_of_storedName hfield hkey) with
      rfl | rfl
    · exact .inl hmem
    · exact .inr hmem
  · rintro (hmem | hmem)
    · exact ⟨_, hmem, by rw [hnativeName]⟩
    · exact ⟨_, hmem, by rw [hname]⟩

/-- An attribute that is not given two values has the given one under its stored name. -/
theorem get?_of_unambiguous (hgiven : field.Unambiguous document) :
    (document.get? field.nativeName).or (document.get? field.name) =
      (schema.normalized document).get? field.name := by
  have hmem := mem_named_iff hschema hnative hkeys
  cases hvalue : (document.get? field.nativeName).or (document.get? field.name) with
  | some value =>
      symm
      refine Fields.get?_ofList_of_mem ((hmem value).mpr ?_) fun other hother => ?_
      · exact (Option.or_eq_some_iff.mp hvalue).imp id And.right
      · rcases Option.or_eq_some_iff.mp hvalue with hfirst | ⟨hnone, hsecond⟩
        · rcases (hmem other).mp hother with hother | hother
          · exact Option.some.inj (hother.symm.trans hfirst)
          · exact (hgiven value other hfirst hother).symm
        · rcases (hmem other).mp hother with hother | hother
          · simp [hnone] at hother
          · exact Option.some.inj (hother.symm.trans hsecond)
  | none =>
      obtain ⟨hfirst, hsecond⟩ := Option.or_eq_none_iff.mp hvalue
      symm
      rw [Option.eq_none_iff_forall_ne_some]
      intro other hother
      rcases (hmem other).mp (Fields.mem_of_get?_ofList hother) with hgiven | hgiven
      · simp [hfirst] at hgiven
      · simp [hsecond] at hgiven

end Named

/-- Under either of its names an attribute has the value that it has under the stored name. -/
theorem get?_either (hschema : schema.WellFormed)
    (hnames : (schema.attributes.map AttributeOf.nativeName).Nodup)
    (hdistinct : (schema.storedNames document).Nodup) (hfield : field ∈ schema.attributes) :
    (document.get? field.nativeName).or (document.get? field.name) =
      (schema.normalized document).get? field.name := by
  have hnative := hschema.nativeAttribute?_nativeName hnames hfield
  have hkeys : (document.map Prod.fst).Nodup := by
    refine List.Nodup.of_map schema.storedName ?_
    rw [List.map_map]
    exact hdistinct
  have hpairs : ((document.map fun entry => (schema.storedName entry.1, entry.2)).map
      Prod.fst).Nodup := by
    rw [List.map_map]
    exact hdistinct
  have hmem := mem_named_iff hschema hnative hkeys
  refine get?_of_unambiguous hschema hnative hkeys fun value other hvalue hother => ?_
  have hfirst := (Fields.get?_ofList_eq_some_iff hpairs).mpr ((hmem value).mpr (.inl hvalue))
  have hsecond := (Fields.get?_ofList_eq_some_iff hpairs).mpr ((hmem other).mpr (.inr hother))
  exact Option.some.inj (hfirst.symm.trans hsecond)

end SchemaOf

namespace Mapper

variable {mapper : Mapper σ}

/-- Keys are made in the same way from values that are linked. -/
theorem agree_key {alike : Place → Place → Prop} {linked : ValueLink σ}
    (hlinks : mapper.scope.reach.Links alike linked) (hroot : alike .root .root)
    (hnames : (mapper.model.schema.attributes.map AttributeOf.nativeName).Nodup)
    {document other : Document} (hdistinct : (mapper.model.schema.storedNames document).Nodup)
    (hotherDistinct : (mapper.model.schema.storedNames other).Nodup)
    (hdocument : linked.Fields alike mapper.scope mapper.model.schema document other) :
    Except.Agree Eq (mapper.key document) (mapper.key other) := by
  have hreaches : mapper.scope.reach.schemas mapper.scope mapper.model.schema := .root
  have hschema := hlinks.wellFormed _ _ hreaches
  have hany : ∀ field ∈ document, Function.const Value True field.2 := fun _ _ => trivial
  have hfields := SchemaOf.rel_normalized hschema hdocument hany
  unfold key
  refine Except.Agree.bind (.mapM_eq (List.forall₂_same.mpr fun field hkey => ?_)) ?_
  · have hfield := Scope.mem_of_key hkey
    have hvalues := hfields.get? field.name
    unfold keyField
    rw [SchemaOf.get?_either hschema hnames hdistinct hfield,
      SchemaOf.get?_either hschema hnames hotherDistinct hfield]
    generalize (mapper.model.schema.normalized document).get? field.name = value at hvalues ⊢
    generalize (mapper.model.schema.normalized other).get? field.name = found at hvalues ⊢
    cases hvalues with
    | none => exact .error _ _
    | some hvalue =>
        have hlinked := hvalue.1.declared field (hschema.attribute?_name hfield)
        refine (Value.agree_encode hlinks _ (fun type htype =>
          mapper.scope.reach.field hreaches hfield htype) hlinked
            (hlinks.child hroot field.name)).bind ?_
        rintro stored _ rfl
        exact .refl _
  · rintro entries _ rfl
    exact .ok rfl

/-- Keys are made of what stands under stored names. -/
theorem key_of_normalized_eq (hschema : mapper.model.schema.WellFormed)
    (hnames : (mapper.model.schema.attributes.map AttributeOf.nativeName).Nodup)
    {document other : Document} (hdistinct : (mapper.model.schema.storedNames document).Nodup)
    (hotherDistinct : (mapper.model.schema.storedNames other).Nodup)
    (hsame : mapper.model.schema.normalized other = mapper.model.schema.normalized document) :
    mapper.key other = mapper.key document := by
  unfold key
  dsimp only
  rw [mapM_congr fun field hkey => ?_]
  unfold keyField
  rw [SchemaOf.get?_either hschema hnames hdistinct (Scope.mem_of_key hkey),
    SchemaOf.get?_either hschema hnames hotherDistinct (Scope.mem_of_key hkey), hsame]

/-- Two documents that give no attribute twice may spell the same in different ways.  If they only
differ at the top, they are written in the same way, with all functions of the application, and have
the same key.  If documents inside of them differ as well, both keys are the same or fail, as long as
no pattern of undeclared data tells the spellings apart and, where fields come in another order, this
has no effect on types.  Then both are also written as the same item or refused, whatever the options
are besides the check of types, if attributes call no function of the application and are compared
with no list or map. -/
theorem agree_documents (hschema : mapper.model.schema.WellFormed)
    (hnames : (mapper.model.schema.attributes.map AttributeOf.nativeName).Nodup)
    {document other : Document} (hdistinct : (mapper.model.schema.storedNames document).Nodup)
    (hotherDistinct : (mapper.model.schema.storedNames other).Nodup) :
    (mapper.model.schema.normalized other = mapper.model.schema.normalized document →
      (∀ writing, mapper.write writing other = mapper.write writing document) ∧
        mapper.key other = mapper.key document) ∧
    ∀ reorders renamed,
      mapper.scope.RespellsFields reorders mapper.model.schema document renamed →
      other.Perm renamed → mapper.scope.reach.BlindTo mapper.scope.reach.SameSpot →
      (reorders → mapper.scope.Decisive ∧ (Value.map document).Light ∧ (Value.map other).Light) →
      Except.Agree Eq (mapper.key document) (mapper.key other) ∧
        ((∀ scope schema, mapper.scope.Reaches scope schema → ∀ field ∈ schema.attributes,
            field.Unhooked) →
          ∀ writing : Writing, writing.options.typeCheck = true →
            Pipeline.Agree Eq (mapper.write writing document) (mapper.write writing other)) := by
  refine ⟨fun hsame => ⟨fun writing => Frame.write_of_normalized_eq hsame writing,
    key_of_normalized_eq hschema hnames hdistinct hotherDistinct hsame⟩, ?_⟩
  intro reorders renamed hrespells hperm hblind hordered
  have hdecisive : reorders → mapper.scope.Decisive := fun hreorders => (hordered hreorders).1
  have hlinked := hrespells.linked hdecisive .root (.inr ⟨hperm, hdistinct⟩)
    fun hreorders => (hordered hreorders).2
  refine ⟨agree_key (Scope.links_respelled hdecisive hblind) .root hnames hdistinct hotherDistinct
    hlinked, fun hunhooked writing hcheck => ?_⟩
  exact Frame.agree_write (Scope.linksWriting_respelled hdecisive hblind hunhooked hcheck) .root .root
    hlinked

end Mapper

/-! ## Leases with tenants -/

/-- A lease names a tenant, whose home is a house for the application. -/
def SchemaOf.lease (keep : KeepUnknown) : Schema Unit where
  attributes := [.plain "id" [.primitive .string], .plain "tenant" [.object (.tenant .disabled)]]
  keepUnknown := keep
  timestamps := none

theorem SchemaOf.build_lease (keep : KeepUnknown) :
    build (lease keep).attributes keep none = .ok (lease keep) :=
  rfl

/-- The mapper of the only model, which has the schema `SchemaOf.lease`. -/
def Mapper.lease (keep : KeepUnknown) : Mapper Unit :=
  ⟨⟨[⟨"Lease", .lease keep, none⟩]⟩, ⟨"Lease", .lease keep, none⟩⟩

theorem Scope.closed_lease (keep : KeepUnknown) : (Mapper.lease keep).scope.Closed
    (fun scope schema => scope = (Mapper.lease keep).scope ∧
      (schema = .lease keep ∨ schema = .tenant .disabled ∨ schema = .home))
    (fun scope type => scope = (Mapper.lease keep).scope ∧
      (type = .primitive .string ∨ type = .object (.tenant .disabled) ∨ type = .object .home)) :=
  .of_noModel (by simp [Mapper.lease, Mapper.scope]) (by simp) (by simp)
    (by simp [SchemaOf.lease, SchemaOf.tenant, SchemaOf.home, AttributeOf.plain]) (by simp)

/-- Every attribute of a lease has one type, and nothing but that. -/
theorem Scope.plain_of_reaches_lease {keep : KeepUnknown} {scope : Scope Unit} {schema : Schema Unit}
    (hreaches : (Mapper.lease keep).scope.Reaches scope schema) {field : Attribute Unit}
    (hfield : field ∈ schema.attributes) : field.Unhooked ∧ ∃ type, field.types = [type] ∧
      ∀ name, type ≠ .model name := by
  have hplain : ∀ (name : String) (type : CandidateType Unit) (nativeAlias : Option String),
      AttributeOf.Unhooked
        { AttributeOf.plain name [type] with nativeAlias := nativeAlias } := fun _ _ _ =>
    ⟨rfl, fun _ h => (nomatch h), fun _ h => (nomatch h), fun _ h => (nomatch h)⟩
  obtain ⟨-, rfl | rfl | rfl⟩ := (closed_lease keep).of_reaches hreaches
  · simp only [SchemaOf.lease, List.mem_cons, List.not_mem_nil, or_false] at hfield
    rcases hfield with rfl | rfl
    · exact ⟨hplain _ _ none, _, rfl, by simp⟩
    · exact ⟨hplain _ _ none, _, rfl, by simp⟩
  · simp only [SchemaOf.tenant, List.mem_cons, List.not_mem_nil, or_false] at hfield
    rcases hfield with rfl | rfl
    · exact ⟨hplain _ _ none, _, rfl, by simp⟩
    · exact ⟨hplain _ _ (some "house"), _, rfl, by simp⟩
  · obtain rfl := List.mem_singleton.mp hfield
    exact ⟨hplain _ _ none, _, rfl, by simp⟩

theorem Scope.decisive_lease (keep : KeepUnknown) : (Mapper.lease keep).scope.Decisive where
  attributes := by
    intro scope schema hreaches field hfield
    obtain ⟨-, type, htypes, htype⟩ := plain_of_reaches_lease hreaches hfield
    rw [htypes]
    exact .inl (toldApart_singleton htype)
  elements := by
    intro scope elements huses
    obtain ⟨-, harray | harray | harray⟩ := (closed_lease keep).of_uses huses <;> cases harray

theorem Scope.blindTo_lease :
    (Mapper.lease .everything).scope.reach.BlindTo
      (Mapper.lease .everything).scope.reach.SameSpot := by
  refine Placeless.blindTo ?_ ?_ ?_ (Reach.SameSpot.compatible _)
  · intro scope schema hreaches near far
    obtain ⟨rfl, -⟩ := (closed_lease _).of_reaches hreaches
    rfl
  · intro scope schema hreaches
    obtain ⟨-, rfl | rfl | rfl⟩ := (closed_lease _).of_reaches hreaches
    · exact SchemaOf.wellFormed_of_build (SchemaOf.build_lease .everything)
    · exact SchemaOf.wellFormed_of_build (SchemaOf.build_tenant .disabled)
    · exact SchemaOf.wellFormed_of_build SchemaOf.build_home
  · intro scope element huses
    obtain ⟨-, hset | hset | hset⟩ := (closed_lease _).of_uses huses <;> cases hset

/-- A lease whose tenant has some fields. -/
def Document.lease (tenant : List (String × Value)) : Document :=
  [("id", .string "1"), ("tenant", .map tenant)]

theorem Scope.respells_lease {keep : KeepUnknown} {reorders : Prop}
    {tenant renamed other : List (String × Value)}
    (htenant : (Mapper.lease keep).scope.RespellsFields reorders (.tenant .disabled) tenant renamed)
    (horder : other = renamed ∨ reorders ∧ other.Perm renamed ∧
      ((SchemaOf.tenant .disabled).storedNames tenant).Nodup) :
    (Mapper.lease keep).scope.RespellsFields reorders (.lease keep) (Document.lease tenant)
      (Document.lease other) := by
  refine .declared rfl rfl .same (.declared rfl rfl (.read .map ?_) .nil)
  intro place choice hchoice
  obtain rfl := List.mem_singleton.mp hchoice
  exact .fields .object htenant horder

/-- The same city in a home and in a house. -/
theorem Scope.respells_city (keep : KeepUnknown) (reorders : Prop) :
    (Mapper.lease keep).scope.RespellsFields reorders (.lease keep)
      (Document.lease [("home", .map [("city", .string "Rome")])])
      (Document.lease [("house", .map [("city", .string "Rome")])]) :=
  respells_lease (.declared rfl rfl .same .nil) (.inl rfl)

namespace Mapper

/-- The pattern keeps the city of a home, but a house is typed under the name that is given. -/
theorem city_of_house_is_refused :
    (lease (.matching ["tenant.home.city"])).scope.RespellsFields False
        (.lease (.matching ["tenant.home.city"]))
        (Document.lease [("home", .map [("city", .string "Rome")])])
        (Document.lease [("house", .map [("city", .string "Rome")])]) ∧
      Yields ((lease (.matching ["tenant.home.city"])).write ⟨.plain, .epoch, 0⟩
          (Document.lease [("home", .map [("city", .string "Rome")])])) ()
        [("id", .string "1"), ("tenant", .map [("home", .map [("city", .string "Rome")])])] () ∧
      ∀ item, ¬ Yields ((lease (.matching ["tenant.home.city"])).write ⟨.plain, .epoch, 0⟩
        (Document.lease [("house", .map [("city", .string "Rome")])])) () item () := by
  refine ⟨Scope.respells_city _ _, yields_of_value? (by decide +kernel), fun item hwrite => ?_⟩
  have hnone : ((lease (.matching ["tenant.home.city"])).write ⟨.plain, .epoch, 0⟩
      (Document.lease [("house", .map [("city", .string "Rome")])])).value?.isNone = true := by
    decide +kernel
  rw [hwrite.value?_eq] at hnone
  cases hnone

/-- The fields of the tenant come in another order. -/
theorem agree_documents_lease :
    Yields ((lease .everything).write ⟨.plain, .epoch, 0⟩ (Document.lease
          [("home", .map [("city", .string "Rome")]), ("hope", .bool true)])) ()
        [("id", .string "1"), ("tenant", .map [("home", .map [("city", .string "Rome")]),
          ("hope", .boolean true)])] () ∧
      Pipeline.Agree Eq
        ((lease .everything).write ⟨.plain, .epoch, 0⟩ (Document.lease
          [("home", .map [("city", .string "Rome")]), ("hope", .bool true)]))
        ((lease .everything).write ⟨.plain, .epoch, 0⟩ (Document.lease
          [("hope", .bool true), ("house", .map [("city", .string "Rome")])])) := by
  refine ⟨yields_of_value? (by decide +kernel), ?_⟩
  have hreorders : True → (lease .everything).scope.Decisive ∧
      (Value.map (Document.lease [("home", .map [("city", .string "Rome")]),
        ("hope", .bool true)])).Light ∧
      (Value.map (Document.lease [("hope", .bool true),
        ("house", .map [("city", .string "Rome")])])).Light := fun _ =>
    ⟨Scope.decisive_lease _, ⟨by decide, by decide⟩, ⟨by decide, by decide⟩⟩
  have htenant : (lease .everything).scope.RespellsFields True (.tenant .disabled)
      [("home", .map [("city", .string "Rome")]), ("hope", .bool true)]
      [("house", .map [("city", .string "Rome")]), ("hope", .bool true)] :=
    .declared rfl rfl .same (.undeclared rfl .nil)
  have hlease := Scope.respells_lease htenant (.inr ⟨trivial, .swap _ _ _, by decide⟩)
  have hagree := (agree_documents (SchemaOf.wellFormed_of_build (SchemaOf.build_lease .everything))
    (by decide) (by decide) (by decide)).2 True _ hlease (.refl _) Scope.blindTo_lease hreorders
  refine hagree.2 (fun scope schema hreaches field hfield => ?_) _ rfl
  exact (Scope.plain_of_reaches_lease hreaches hfield).1

end Mapper

end ItemMapper
