import ItemMapper.Proofs.Coding.Set
import ItemMapper.Proofs.Schema.Names
import ItemMapper.Scope

/-!
# Values of a declared shape

`Value.Fits scope type value`: the value has exactly the shape that the type declares, so that
nothing of it is lost when it is stored.  Dates have the precision of their storage, sets are not
empty and have different members, constants are equal to the declared one, and every field of a
document is a declared attribute under its native name.

Values are stored by the type that scores best, so a shape tells the stored form only where there
is one candidate.  `Scope.Determined` asks this of everything that can be reached from the root
schema: through nested objects, through references to the root, and through references to models,
which continue in the scope of the model (`Scope.Reaches`).
-/

namespace ItemMapper

variable {σ : Type}

/-! ## The number of values -/

mutual

/-- The number of values that a value consists of, itself included. -/
def Value.size : Value → Nat
  | .list items => 1 + Value.itemsSize items
  | .set members => 1 + Value.itemsSize members
  | .map fields => 1 + Value.fieldsSize fields
  | _ => 1

/-- The number of values that a list consists of. -/
def Value.itemsSize : List Value → Nat
  | [] => 0
  | item :: rest => item.size + Value.itemsSize rest

/-- The number of values that the fields of a document consist of. -/
def Value.fieldsSize : List (String × Value) → Nat
  | [] => 0
  | (_, value) :: rest => value.size + Value.fieldsSize rest

end

namespace Value

theorem size_pos (value : Value) : 0 < value.size := by
  cases value <;> simp [size]

theorem size_pos_of_mem (items : List Value) : ∀ size ∈ items.map Value.size, 0 < size := by
  intro size hsize
  obtain ⟨item, -, rfl⟩ := List.mem_map.mp hsize
  exact item.size_pos

theorem itemsSize_eq (items : List Value) : itemsSize items = (items.map size).sum := by
  induction items with
  | nil => rfl
  | cons item rest ih => rw [itemsSize, ih, List.map_cons, List.sum_cons]

theorem fieldsSize_eq (fields : List (String × Value)) :
    fieldsSize fields = (fields.map fun field => field.2.size).sum := by
  induction fields with
  | nil => rfl
  | cons field rest ih => rw [fieldsSize, ih, List.map_cons, List.sum_cons]

theorem size_le_itemsSize {items : List Value} {item : Value} (hitem : item ∈ items) :
    item.size ≤ itemsSize items := by
  rw [itemsSize_eq]
  exact List.le_sum_of_mem (List.mem_map_of_mem hitem)

theorem size_le_fieldsSize {fields : List (String × Value)} {field : String × Value}
    (hfield : field ∈ fields) : field.2.size ≤ fieldsSize fields := by
  rw [fieldsSize_eq]
  exact List.le_sum_of_mem (List.mem_map.mpr ⟨field, hfield, rfl⟩)

end Value

/-! ## What a root schema leads to -/

namespace Scope

/-- Values of a type are documents of a schema, whose types are looked at in a scope of its own. -/
inductive Opens (scope : Scope σ) : CandidateType σ → Scope σ → Schema σ → Prop
  | object {schema : Schema σ} : Opens scope (.object schema) scope schema
  | self : Opens scope .self scope scope.root
  | model {name : String} {model : Model σ} (hmodel : scope.registry.find? name = some model) :
      Opens scope (.model name) ⟨scope.registry, model.schema⟩ model.schema

/-- The document that a value of such a type is. -/
theorem Opens.enter? {scope inner : Scope σ} {type : CandidateType σ} {schema : Schema σ}
    (hopens : scope.Opens type inner schema) (place : Place) :
    ∃ innerPlace, scope.enter? place type = some ⟨inner, innerPlace, schema⟩ := by
  cases hopens with
  | object => exact ⟨place, rfl⟩
  | self => exact ⟨place.enter, rfl⟩
  | model hmodel => exact ⟨place.enter, by rw [Scope.enter?, hmodel]; rfl⟩

/-- The document that a value is belongs to its type. -/
theorem opens_of_enter? {scope : Scope σ} {place : Place} {type : CandidateType σ}
    {frame : Frame σ} (henter : scope.enter? place type = some frame) :
    scope.Opens type frame.scope frame.schema := by
  cases type with
  | object schema =>
      obtain rfl := Option.some.inj henter
      exact .object
  | self =>
      obtain rfl := Option.some.inj henter
      exact .self
  | model name =>
      obtain ⟨model, hmodel, rfl⟩ := Option.map_eq_some_iff.mp henter
      exact .model hmodel
  | _ => simp [Scope.enter?] at henter

/-- A type leads to one document only. -/
theorem Opens.unique {scope inner last : Scope σ} {type : CandidateType σ} {schema other : Schema σ}
    (hopens : scope.Opens type inner schema) (hother : scope.Opens type last other) :
    last = inner ∧ other = schema := by
  cases hopens with
  | object => cases hother; exact ⟨rfl, rfl⟩
  | self => cases hother; exact ⟨rfl, rfl⟩
  | model hmodel =>
      cases hother with
      | model hfound =>
          obtain rfl := Option.some.inj (hmodel.symm.trans hfound)
          exact ⟨rfl, rfl⟩

mutual

/-- The schemas that the documents of a scope can have, at any depth. -/
inductive Reaches (start : Scope σ) : Scope σ → Schema σ → Prop
  | root : Reaches start start start.root
  | inside {scope inner : Scope σ} {type : CandidateType σ} {schema : Schema σ}
      (huses : Uses start scope type) (hopens : scope.Opens type inner schema) :
      Reaches start inner schema

/-- The types that the values in these documents can have. -/
inductive Uses (start : Scope σ) : Scope σ → CandidateType σ → Prop
  | attribute {scope : Scope σ} {schema : Schema σ} {field : Attribute σ} {type : CandidateType σ}
      (hschema : Reaches start scope schema) (hfield : field ∈ schema.attributes)
      (htype : type ∈ field.types) : Uses start scope type
  | element {scope : Scope σ} {elements : List (CandidateType σ)} {type : CandidateType σ}
      (harray : Uses start scope (.array elements)) (htype : type ∈ elements) :
      Uses start scope type

end

/-- A set of schemas and of types that one step does not leave. -/
structure Closed (start : Scope σ) (schemas : Scope σ → Schema σ → Prop)
    (types : Scope σ → CandidateType σ → Prop) : Prop where
  root : schemas start start.root
  inside : ∀ scope type inner schema, types scope type → scope.Opens type inner schema →
    schemas inner schema
  field : ∀ scope schema, schemas scope schema → ∀ field ∈ schema.attributes,
    ∀ type ∈ field.types, types scope type
  element : ∀ scope elements, types scope (.array elements) → ∀ type ∈ elements, types scope type

mutual

/-- What one step does not leave holds everything that can be reached. -/
theorem Closed.of_reaches {start : Scope σ} {schemas : Scope σ → Schema σ → Prop}
    {types : Scope σ → CandidateType σ → Prop} (hclosed : start.Closed schemas types) :
    ∀ {scope : Scope σ} {schema : Schema σ}, start.Reaches scope schema → schemas scope schema
  | _, _, .root => hclosed.root
  | _, _, .inside huses hopens => hclosed.inside _ _ _ _ (hclosed.of_uses huses) hopens

theorem Closed.of_uses {start : Scope σ} {schemas : Scope σ → Schema σ → Prop}
    {types : Scope σ → CandidateType σ → Prop} (hclosed : start.Closed schemas types) :
    ∀ {scope : Scope σ} {type : CandidateType σ}, start.Uses scope type → types scope type
  | _, _, .attribute hschema hfield htype =>
      hclosed.field _ _ (hclosed.of_reaches hschema) _ hfield _ htype
  | _, _, .element harray htype => hclosed.element _ _ (hclosed.of_uses harray) _ htype

end

/-- Without types that refer to other models nothing leaves the outermost scope. -/
theorem Closed.of_noModel {start : Scope σ} {schemas : Schema σ → Prop}
    {types : CandidateType σ → Prop} (hroot : schemas start.root)
    (hmodel : ∀ name, ¬ types (.model name))
    (hobject : ∀ schema, types (.object schema) → schemas schema)
    (hfield : ∀ schema, schemas schema → ∀ field ∈ schema.attributes, ∀ type ∈ field.types,
      types type)
    (helement : ∀ elements, types (.array elements) → ∀ type ∈ elements, types type) :
    start.Closed (fun scope schema => scope = start ∧ schemas schema)
      (fun scope type => scope = start ∧ types type) where
  root := ⟨rfl, hroot⟩
  inside := by
    rintro scope type inner schema ⟨rfl, htype⟩ hopens
    cases hopens with
    | object => exact ⟨rfl, hobject schema htype⟩
    | self => exact ⟨rfl, hroot⟩
    | model => exact absurd htype (hmodel _)
  field := by
    rintro scope schema ⟨rfl, hschema⟩ field hmem type htype
    exact ⟨rfl, hfield schema hschema field hmem type htype⟩
  element := by
    rintro scope elements ⟨rfl, harray⟩ type htype
    exact ⟨rfl, helement elements harray type htype⟩

/-- Every attribute and every list that can be reached has one candidate type, and native names
tell attributes apart.  The schemas are those that can be built. -/
structure Determined (start : Scope σ) : Prop where
  wellFormed : ∀ scope schema, start.Reaches scope schema → schema.WellFormed
  oneType : ∀ scope schema, start.Reaches scope schema →
    ∀ field ∈ schema.attributes, ∃ type, field.types = [type]
  oneElement : ∀ scope elements, start.Uses scope (.array elements) →
    ∃ element, elements = [element]
  nativeNames : ∀ scope schema, start.Reaches scope schema →
    (schema.attributes.map AttributeOf.nativeName).Nodup

end Scope

/-! ## Shapes -/

/-- A value has exactly the shape that a type declares. -/
inductive Value.Fits : Scope σ → CandidateType σ → Value → Prop
  | string {scope : Scope σ} {text : String} : Fits scope (.primitive .string) (.string text)
  | number {scope : Scope σ} {x : Binary64} (hnumber : x ≠ .nan) :
      Fits scope (.primitive .number) (.number x)
  | binary {scope : Scope σ} {bytes : List UInt8} :
      Fits scope (.primitive .binary) (.binary bytes)
  | boolean {scope : Scope σ} {value : Bool} : Fits scope (.primitive .boolean) (.bool value)
  | null {scope : Scope σ} : Fits scope (.primitive .null) .null
  | date {scope : Scope σ} {storage : DateStorage} {t : Instant} (hdate : t.FitsStorage storage) :
      Fits scope (.date storage) (.date t)
  | combine {scope : Scope σ} {sources : List String} {separator text : String} :
      Fits scope (.combine sources separator) (.string text)
  | constant {scope : Scope σ} {expected value : Value} (hequal : expected.equal value = true)
      (hnatural : expected.natural?.isSome = true) : Fits scope (.constant expected) value
  | set {scope : Scope σ} {element : CandidateType σ} {kind : SetElement} {members : List Value}
      (hkind : element.setElement? = some kind) (hne : members ≠ [])
      (hdistinct : members.Pairwise fun a b => a.equal b = false)
      (hmembers : ∀ member ∈ members, Fits scope element member) :
      Fits scope (.set element) (.set members)
  | list {scope : Scope σ} {elements : List (CandidateType σ)} {items : List Value}
      (hitems : ∀ item ∈ items, ∀ type ∈ elements, Fits scope type item) :
      Fits scope (.array elements) (.list items)
  | document {scope inner : Scope σ} {type : CandidateType σ} {schema : Schema σ}
      {fields : List (String × Value)} (hopens : scope.Opens type inner schema)
      (hsorted : Fields.Sorted fields)
      (hdeclared : ∀ entry ∈ fields, ∃ field ∈ schema.attributes, field.nativeName = entry.1)
      (hvalues : ∀ entry ∈ fields, ∀ field ∈ schema.attributes, field.nativeName = entry.1 →
        ∀ type ∈ field.types, Fits inner type entry.2) :
      Fits scope type (.map fields)
  /-- A value that stands for an item of a model is the hash key of the item. -/
  | key {scope : Scope σ} {name : String} {model : Model σ} {field : Attribute σ}
      {type : CandidateType σ} {value : Value} (hmodel : scope.registry.find? name = some model)
      (hkey : model.schema.hashKey? = some field) (htypes : field.types = [type])
      (hscalar : (∃ kind, type = .primitive kind) ∨ ∃ storage, type = .date storage)
      (hvalue : Fits ⟨scope.registry, model.schema⟩ type value) :
      Fits scope (.model name) value

namespace Value

theorem isUndefined_of_fits {scope : Scope σ} {type : CandidateType σ} {value : Value}
    (hfits : Fits scope type value) : value.isUndefined = false := by
  induction hfits with
  | constant hequal hnatural =>
      rename_i expected value
      cases value with
      | undefined => cases expected <;> simp_all [equal, natural?]
      | _ => rfl
  | key _ _ _ _ _ ih => exact ih
  | _ => rfl

/-- Where native names differ, the type of a field is that of the attribute with its name. -/
theorem fits_of_attribute {schema : Schema σ} {field : Attribute σ} {scope : Scope σ}
    {type : CandidateType σ} {value : Value}
    (hnames : (schema.attributes.map AttributeOf.nativeName).Nodup)
    (hfield : field ∈ schema.attributes) (htypes : field.types = [type])
    (hfits : Fits scope type value) :
    ∀ other ∈ schema.attributes, other.nativeName = field.nativeName →
      ∀ candidate ∈ other.types, Fits scope candidate value := by
  intro other hother hname candidate hcandidate
  obtain rfl := List.inj_on_of_nodup_map hnames hother hfield hname
  rw [htypes, List.mem_singleton] at hcandidate
  exact hcandidate ▸ hfits

/-- The members of a set are of the kind of its type. -/
theorem holds_of_fits {scope : Scope σ} {element : CandidateType σ} {kind : SetElement}
    {member : Value} (hkind : element.setElement? = some kind) (hfits : Fits scope element member) :
    kind.Holds member := by
  cases hfits with
  | string => cases hkind; exact ⟨_, rfl⟩
  | number hnumber => cases hkind; exact ⟨_, rfl, hnumber⟩
  | binary => cases hkind; exact ⟨_, rfl⟩
  | date hdate => cases hkind; exact ⟨_, rfl, hdate⟩
  | document hopens => cases hopens <;> simp [CandidateType.setElement?] at hkind
  | _ => simp [CandidateType.setElement?] at hkind

end Value

end ItemMapper
