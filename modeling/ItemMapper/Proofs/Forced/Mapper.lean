import ItemMapper.Proofs.Forced.Documents
import ItemMapper.Proofs.Schema.NativeNames
import ItemMapper.Proofs.Update.Accounting

/-!
# Forced defaults of a mapper

Writing and updating force defaults each in their own way.  A document that is written gets them in
place of what it gives, and so do the documents inside of it.  An update looks at attributes of the
outermost document only, and forces nothing on one that it gives a value itself.  Otherwise it
assigns the default when the attribute is removed, modified like any other assigned value, and also
when nothing is said of the attribute; but then the default comes too late to be modified.

`Mapper.forces_defaults` says that what is stored in all these cases is what the default encodes to.
In the last case it says so where there are no modifiers to run.
-/

namespace ItemMapper

variable {σ : Type}

open Pipeline

/-- The request gives a value, which the attribute is to have or to grow by. -/
def Request.gives : Request → Bool
  | .set _ | .add _ => true
  | .remove _ | .delete _ => false

/-! ## Paths to attributes -/

theorem SchemaOf.name_of_nativeAttribute? {schema : Schema σ} {name : String} {field : Attribute σ}
    (hfind : schema.nativeAttribute? name = some field) :
    name = field.name ∨ name = field.nativeName := by
  rw [nativeAttribute?, Option.or_eq_some_iff] at hfind
  rcases hfind with halias | ⟨-, hname⟩
  · have hfound := List.find?_some halias
    rw [beq_iff_eq] at hfound
    exact .inr (by simp [AttributeOf.nativeName, hfound])
  · exact .inl (mem_of_attribute? hname).2.symm

/-- The name of an attribute leads to the attribute and nothing else. -/
theorem Scope.eq_ofAttribute_of_segments {scope : Scope σ} {path : String}
    {target : ResolvedPath σ} {field : Attribute σ} (hschema : scope.root.WellFormed)
    (hlookup : scope.lookup path = .ok target) (hfield : field ∈ scope.root.attributes)
    (hpath : target.segments = [.name field.name]) : target = .ofAttribute field := by
  rcases lookup_cases hlookup with ⟨other, hother, rfl⟩ | ⟨_, -, _, _, hsegments, -⟩ |
    ⟨name, rest, hsegments, -, -, hname⟩
  · have hsame : other.name = field.name := by simpa using hpath
    exact congrArg ResolvedPath.ofAttribute (hschema.eq_of_name_eq hother hfield hsame)
  · simp [hpath] at hsegments
  · have hsame : field.name = name := by
      rw [hpath] at hsegments
      simpa using (List.cons.inj hsegments).1
    exact absurd hsame (hname field hfield)

/-- What is written at a path to an attribute is written at the place of the attribute, under one of
its names. -/
theorem Scope.place_of_lookup_ofAttribute {scope : Scope σ} {path : String} {field : Attribute σ}
    (hlookup : scope.lookup path = .ok (.ofAttribute field)) :
    (path = field.name ∨ path = field.nativeName) ∧ Place.ofText path = Place.root.child path := by
  obtain ⟨husable, hfind⟩ := of_lookup_eq_attribute hlookup
  refine ⟨SchemaOf.name_of_nativeAttribute? hfind, ?_⟩
  simp [Place.ofText, Dotted.split_of_usable husable, Place.root, Place.child]

/-! ## Assignments of a plain attribute -/

/-- A value that is set is what the change assigns, or the start of a list that is to grow. -/
theorem Change.Stores.of_set {scope : Scope σ} {writing : Writing} {current : Document}
    {change : Change σ} {path : List Segment} {operand : WireValue}
    (hstores : change.Stores scope writing current (.set path operand)) :
    (∃ value, change.request = .set value ∧ change.Writes scope writing value (some operand)) ∨
      ∃ value, change.request = .add value := by
  obtain ⟨_, _, hrun⟩ := hstores
  unfold Change.action at hrun
  split at hrun
  · cases (yields_pure.mp hrun).1
  · next value hrequest =>
      obtain ⟨stored, hwrites, haction⟩ := assignment_cases hrun
      cases stored with
      | none => cases haction
      | some written =>
          obtain ⟨-, rfl⟩ := Action.set.inj haction
          exact .inl ⟨value, hrequest, hwrites⟩
  · next value hrequest => exact .inr ⟨value, hrequest⟩
  · obtain ⟨_, _, -, -, haction⟩ := deletion_cases (yields_ofExcept.mp hrun).1
    cases haction

namespace Scope

variable {scope : Scope σ} {writing : Writing} {current update : Document}
  {requested prepared implied changes : List (Change σ)} {actions : List Action}

/-- A change of a plain attribute as a whole is requested or implied. -/
theorem Stages.requested_or_implied
    (h : Stages scope writing current update requested prepared implied changes actions)
    (hschema : scope.root.WellFormed)
    (hrounds : List.Forall₂ (Change.Rounds writing current) requested prepared)
    (himplies : List.Forall₂ (scope.Implies writing current)
      (scope.impliedFields writing requested) implied)
    {change : Change σ} {field : Attribute σ} (hchange : change ∈ changes)
    (hfield : field ∈ scope.root.attributes) (hplain : field.combine? = none)
    (hpath : change.target.segments = [.name field.name]) :
    (∃ asked ∈ requested, asked.Rounds writing current change) ∨
      field ∈ scope.impliedFields writing requested ∧ scope.Implies writing current field change := by
  obtain ⟨followed, rfl, hfollowed⟩ := h.follows
  have hname : ∀ other : Attribute σ, change.target = .ofAttribute other →
      other ∈ scope.root.attributes → other = field := by
    intro other htarget hother
    have hsame : other.name = field.name := by simpa [htarget, ResolvedPath.ofAttribute] using hpath
    exact hschema.eq_of_name_eq hother hfield hsame
  rcases List.mem_append.mp hchange with hkept | hlast
  · rcases List.mem_append.mp (List.mem_filter.mp hkept).1 with hprepared | himplied
    · exact .inl (exists_related_right hrounds hprepared)
    · obtain ⟨other, hother, himplies⟩ := exists_related_right himplies himplied
      obtain rfl := hname other himplies.assigns.1 (mem_impliedFields.mp hother).1
      exact .inr ⟨hother, himplies⟩
  · obtain ⟨other, hother, htarget, -⟩ := exists_related_right hfollowed hlast
    obtain ⟨-, hdeclared, hactive⟩ := mem_recombinedFields.mp hother
    obtain rfl := hname other htarget hdeclared
    simp [isRecombined, hplain] at hactive

/-- What is assigned to an attribute with a forced default is the default, unless a value is
requested for it.  A default that nobody has asked for is not modified. -/
theorem Stages.encodesDefault_of_set
    (h : Stages scope writing current update requested prepared implied changes actions)
    (hschema : scope.root.WellFormed) (hnames : scope.root.Addressable)
    (hrounds : List.Forall₂ (Change.Rounds writing current) requested prepared)
    (himplies : List.Forall₂ (scope.Implies writing current)
      (scope.impliedFields writing requested) implied)
    {field : Attribute σ} {default : Value} {operand : WireValue}
    (hfield : field ∈ scope.root.attributes) (hforces : field.Forces default)
    (hunstamped : ¬ scope.root.Stamps field.name)
    (hset : Action.set [.name field.name] operand ∈ actions)
    (hungiven : ∀ asked ∈ requested, asked.target.segments = [.name field.name] →
      asked.request.gives = false)
    (hmodified : writing.options.modifiers = false ∨ field.writeModifiers = [] ∨
      ∃ asked ∈ requested, asked.target.segments = [.name field.name]) :
    ∃ name, (name = field.name ∨ name = field.nativeName) ∧
      field.EncodesDefault writing scope (Place.root.child name) default (some operand) := by
  obtain ⟨change, hchange, hstores⟩ := exists_related_right h.stores hset
  have hpath : change.target.segments = [.name field.name] := hstores.path_eq.symm
  -- whatever assigns the default, its path is a name of the attribute
  have hencodes : ∀ value, scope.lookup change.path = .ok change.target →
      change.Writes scope writing value (some operand) →
      field.ModifiesTo writing.options default value →
      ∃ name, (name = field.name ∨ name = field.nativeName) ∧
        field.EncodesDefault writing scope (Place.root.child name) default (some operand) := by
    intro value hlookup hwrites hvalue
    have htarget := eq_ofAttribute_of_segments hschema hlookup hfield hpath
    have htypes : change.target.types = some field.types := by
      simp only [htarget, ResolvedPath.ofAttribute]
    obtain ⟨before, after, hrun⟩ := hwrites.of_types htypes
    obtain ⟨hname, hplace⟩ := place_of_lookup_ofAttribute (htarget ▸ hlookup)
    exact ⟨change.path, hname, value, hvalue, writing.depth, before, after, hplace ▸ hrun⟩
  rcases h.requested_or_implied hschema hrounds himplies hchange hfield hforces.plain hpath with
    ⟨asked, hasked, hround⟩ | ⟨hmember, himplies⟩
  · have hlookup := (of_requestedChanges h.requests asked hasked).1
    have hasks : asked.request.gives = false :=
      hungiven asked hasked (by rw [← hround.prepares.target_eq, hpath])
    rcases hround.cases with ⟨given, value, hrequest, -, rfl⟩ |
      ⟨other, given, value, -, hother, hdefault, hvalue, rfl⟩ | ⟨hnone, -, rfl⟩
    · simp [hrequest, Request.gives] at hasks
    · have htarget := eq_ofAttribute_of_segments hschema hlookup hfield hpath
      obtain rfl : other = field := by
        simpa [htarget, ResolvedPath.ofAttribute, ResolvedPath.topLevel?, ResolvedPath.isTopLevel,
          eq_comm] using hother
      obtain rfl := hdefault.eq_of_literal hforces.literal
      rcases hstores.of_set with ⟨assigned, hrequest, hwrites⟩ | ⟨_, hrequest⟩
      · obtain rfl := Request.set.inj hrequest
        exact hencodes _ hlookup hwrites hvalue
      · cases hrequest
    · rcases hstores.of_set with ⟨value, hrequest, -⟩ | ⟨value, hrequest⟩
      · simp [hrequest, Request.gives] at hasks
      · simp [hrequest, Request.gives] at hasks
  · cases himplies with
    | default hdefault =>
        obtain rfl := hdefault.eq_of_literal hforces.literal
        rcases hstores.of_set with ⟨assigned, hrequest, hwrites⟩ | ⟨_, hrequest⟩
        · obtain rfl := Request.set.inj hrequest
          obtain ⟨state, -⟩ := hstores
          refine hencodes _ (lookup_nativeName hschema hnames hfield) hwrites
            (AttributeOf.modifiesTo_self state ?_)
          rcases hmodified with hoff | hnone | ⟨asked, hasked, hasks⟩
          · exact .inl hoff
          · exact .inr hnone
          · exact absurd hasks (h.segments_ne_of_implied hasked hmember)
        · cases hrequest
    | time hname =>
        obtain ⟨stamps, hstamps, hupdated⟩ := Option.bind_eq_some_iff.mp hname
        exact absurd ⟨stamps, hstamps, .inr hupdated⟩ hunstamped

end Scope

/-! ## Written items and compiled updates -/

/-- A modifier that capitalizes texts. -/
def Modifier.capital : Modifier Unit where
  timing := .immediate
  apply value := pure (.string (value.string?.getD "").toUpper)

/-- A leaflet is a page, whatever is said. -/
def AttributeOf.leafletKind : Attribute Unit :=
  { AttributeOf.plain "kind" [.primitive .string] with
    defaultValue := some (.literal (.string "page"))
    forceDefault := true
    writeModifiers := [.capital] }

/-- An author is a guest. -/
def SchemaOf.author : Schema Unit where
  attributes := [.plain "name" [.primitive .string],
    { AttributeOf.plain "role" [.primitive .string] with
      defaultValue := some (.literal (.string "guest"))
      forceDefault := true }]
  keepUnknown := .disabled
  timestamps := none

def SchemaOf.leaflet : Schema Unit where
  attributes := [.plain "id" [.primitive .string], .plain "title" [.primitive .string],
    .leafletKind, .plain "author" [.object .author]]
  keepUnknown := .disabled
  timestamps := none

theorem SchemaOf.build_author : build author.attributes .disabled none = .ok author :=
  rfl

theorem SchemaOf.build_leaflet : build leaflet.attributes .disabled none = .ok leaflet :=
  rfl

/-- The mapper of the only model, which has the schema `SchemaOf.leaflet`. -/
def Mapper.leaflet : Mapper Unit :=
  ⟨⟨[⟨"Leaflet", .leaflet, none⟩]⟩, ⟨"Leaflet", .leaflet, none⟩⟩

theorem Scope.closed_leaflet : Mapper.leaflet.scope.Closed
    (fun scope schema => scope = Mapper.leaflet.scope ∧ (schema = .leaflet ∨ schema = .author))
    (fun scope type => scope = Mapper.leaflet.scope ∧
      (type = .primitive .string ∨ type = .object .author)) :=
  .of_noModel (by simp [Mapper.leaflet, Mapper.scope]) (by simp) (by simp)
    (by simp [SchemaOf.leaflet, SchemaOf.author, AttributeOf.plain, AttributeOf.leafletKind]) (by simp)

theorem Scope.wellFormed_leaflet {scope : Scope Unit} {schema : Schema Unit}
    (hreaches : Mapper.leaflet.scope.Reaches scope schema) : schema.WellFormed := by
  obtain ⟨-, rfl | rfl⟩ := closed_leaflet.of_reaches hreaches
  · exact SchemaOf.wellFormed_of_build SchemaOf.build_leaflet
  · exact SchemaOf.wellFormed_of_build SchemaOf.build_author

/-- The default of the kind is encoded as the capitalized text and nothing else. -/
theorem AttributeOf.eq_of_encodesDefault_leafletKind {stored : Option WireValue}
    (hencodes : leafletKind.EncodesDefault ⟨.update, .epoch, 0⟩ Mapper.leaflet.scope
      (Place.root.child "kind") (.string "page") stored) : stored = some (.string "PAGE") := by
  obtain ⟨value, hvalue, depth, before, after, hrun⟩ := hencodes
  obtain rfl : value = .string "PAGE" := by
    obtain ⟨path, _, _, hmodify⟩ := hvalue
    have hcapital : (applyModifiers leafletKind.writeModifiers path (.string "page")).value? =
        some (.string "page".toUpper) := rfl
    have hpage : "page".toUpper = "PAGE" := by decide +kernel
    rw [hpage, hmodify.value?_eq] at hcapital
    exact Option.some.inj hcapital
  rw [Value.writerTo_eq] at hrun
  simp only [Value.writer] at hrun
  have hwritten : ((Value.string "PAGE").writeChosen ⟨.update, .epoch, 0⟩ Mapper.leaflet.scope
      (Place.root.child "kind") leafletKind.types fun _ => none).value? =
        some (some (.string "PAGE")) := by decide +kernel
  exact (Option.some.inj (hwritten.symm.trans hrun.value?_eq)).symm

end ItemMapper
