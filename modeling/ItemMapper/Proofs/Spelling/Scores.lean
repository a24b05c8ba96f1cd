import ItemMapper.Proofs.Spelling.Linked
import ItemMapper.Proofs.Typing.Apart
import ItemMapper.Proofs.Typing.Rounded

/-!
# Scores under other spellings

Two documents say the same in different spellings if they differ only in whether declared attributes
are given by alias or by stored name, at any depth (`Scope.Respells`).  What is declared depends on
how a value is read, so the relation follows the ways of reading it.

Such documents have the same exact score at the same spot.  The scores that values are typed with
are rounded at every step, however, and documents list their fields by name, so that other names may
put the fields in another order.  Rounded sums can depend on this order.  The type is the same
nevertheless

* if the fields stay in order,
* if the candidate types are told apart, for then it only matters which scores are above zero, or
* if no rounding takes place, as all documents that could be meant have scalar attributes, and what
  is summed up are zeros, halves and ones

(`Scope.agree_resolve_respelled`, where `Scope.Decided` stands for the last two).
-/

namespace ItemMapper

variable {σ : Type}

/-! ## Other spellings -/

namespace Scope

mutual

/-- As one of some types, two values differ only in how declared attributes are named. -/
inductive Respells (reorders : Prop) : Scope σ → List (CandidateType σ) → Value → Value → Prop
  | same {scope : Scope σ} {types : List (CandidateType σ)} {value : Value} :
      Respells reorders scope types value value
  | read {scope : Scope σ} {types : List (CandidateType σ)} {value other : Value}
      (hform : value.SameForm other)
      (hread : ∀ place, ∀ choice ∈ scope.choices place types value.isDocument,
        RespellsAs reorders choice.reading.scope choice.reading.type value other) :
      Respells reorders scope types value other

/-- The same for one type.  If it does not take such values, they may differ in any way.  Where that
is allowed, the fields of documents come in another order; then no attribute may be given twice. -/
inductive RespellsAs (reorders : Prop) : Scope σ → CandidateType σ → Value → Value → Prop
  | same {scope : Scope σ} {type : CandidateType σ} {value : Value} :
      RespellsAs reorders scope type value value
  | items {scope : Scope σ} {elements : List (CandidateType σ)} {items others : List Value}
      (hitems : RespellsItems reorders scope elements items others) :
      RespellsAs reorders scope (.array elements) (.list items) (.list others)
  | members {scope : Scope σ} {element : CandidateType σ} {members others : List Value}
      (hmembers : List.Forall₂ Value.SameForm members others) :
      RespellsAs reorders scope (.set element) (.list members) (.list others)
  | fields {scope inner : Scope σ} {type : CandidateType σ} {schema : Schema σ}
      {fields renamed others : List (String × Value)} (hopens : scope.Opens type inner schema)
      (hfields : RespellsFields reorders inner schema fields renamed)
      (horder : others = renamed ∨ reorders ∧ others.Perm renamed ∧
        (fields.map fun field => schema.storedName field.1).Nodup) :
      RespellsAs reorders scope type (.map fields) (.map others)
  | unfit {scope : Scope σ} {type : CandidateType σ} {value other : Value}
      (hform : value.SameForm other) (hunfit : value.typeName ∉ type.takes) :
      RespellsAs reorders scope type value other

/-- The same for the items of lists. -/
inductive RespellsItems (reorders : Prop) :
    Scope σ → List (CandidateType σ) → List Value → List Value → Prop
  | nil {scope : Scope σ} {elements : List (CandidateType σ)} :
      RespellsItems reorders scope elements [] []
  | cons {scope : Scope σ} {elements : List (CandidateType σ)} {item other : Value}
      {rest others : List Value} (hitem : Respells reorders scope elements item other)
      (hrest : RespellsItems reorders scope elements rest others) :
      RespellsItems reorders scope elements (item :: rest) (other :: others)

/-- The same for the fields of documents, one by one. -/
inductive RespellsFields (reorders : Prop) :
    Scope σ → Schema σ → List (String × Value) → List (String × Value) → Prop
  | nil {scope : Scope σ} {schema : Schema σ} : RespellsFields reorders scope schema [] []
  | declared {scope : Scope σ} {schema : Schema σ} {field : Attribute σ} {key name : String}
      {value other : Value} {rest others : List (String × Value)}
      (hkey : schema.nativeAttribute? key = some field)
      (hname : schema.nativeAttribute? name = some field)
      (hvalue : Respells reorders scope field.types value other)
      (hrest : RespellsFields reorders scope schema rest others) :
      RespellsFields reorders scope schema ((key, value) :: rest) ((name, other) :: others)
  | undeclared {scope : Scope σ} {schema : Schema σ} {key : String} {value : Value}
      {rest others : List (String × Value)} (hkey : schema.nativeAttribute? key = none)
      (hrest : RespellsFields reorders scope schema rest others) :
      RespellsFields reorders scope schema ((key, value) :: rest) ((key, value) :: others)

end

/-- Values of a type have the same rounded score in whatever order their fields are. -/
inductive Level : Scope σ → CandidateType σ → Prop
  | whole {scope : Scope σ} {type : CandidateType σ} (hwhole : type.isWhole = true) :
      Level scope type
  | set {scope : Scope σ} {element : CandidateType σ} : Level scope (.set element)
  | array {scope : Scope σ} {elements : List (CandidateType σ)}
      (helements : ∀ place isDocument, ∀ choice ∈ scope.choices place elements isDocument,
        Level choice.reading.scope choice.reading.type) : Level scope (.array elements)
  | document {scope inner : Scope σ} {type : CandidateType σ} {schema : Schema σ}
      (hopens : scope.Opens type inner schema)
      (hwhole : ∀ field ∈ schema.attributes, ∀ type ∈ field.types, type.isWhole = true) :
      Level scope type

/-- The order of the fields of a value has no effect on which of the types it takes. -/
def Decided (scope : Scope σ) (types : List (CandidateType σ)) : Prop :=
  scope.ToldApart types ∨ ∀ place isDocument, ∀ choice ∈ scope.choices place types isDocument,
    Level choice.reading.scope choice.reading.type

end Scope

/-- A value for which the order of scores is no matter of size: no average in it gets too small for
the format, and no sum of halves too great. -/
structure Value.Light (value : Value) : Prop where
  weight : value.weight ≤ 537
  size : value.size < 2 ^ 52

/-- Whatever the spelling, a list is still a list and a map is a map. -/
theorem Scope.Respells.sameForm {reorders : Prop} {scope : Scope σ}
    {types : List (CandidateType σ)} {value other : Value}
    (hrespells : scope.Respells reorders types value other) : value.SameForm other := by
  cases hrespells with
  | same => exact .same
  | read hform => exact hform

namespace Value

theorem length_le_fieldsSize (fields : List (String × Value)) : fields.length ≤ fieldsSize fields := by
  induction fields with
  | nil => exact Nat.zero_le _
  | cons field rest ih =>
      have hpos := field.2.size_pos
      rw [fieldsSize, List.length_cons]
      omega

theorem Light.item {items : List Value} (hlight : (Value.list items).Light) {item : Value}
    (hitem : item ∈ items) : item.Light where
  weight := by
    have hweight := hlight.weight
    rw [Value.weight] at hweight
    have hle := weight_le_itemsWeight hitem
    omega
  size := by
    have hsize := hlight.size
    rw [Value.size] at hsize
    have hle := size_le_itemsSize hitem
    omega

theorem Light.field {fields : List (String × Value)} (hlight : (Value.map fields).Light)
    {field : String × Value} (hfield : field ∈ fields) : field.2.Light where
  weight := by
    have hweight := hlight.weight
    rw [Value.weight] at hweight
    have hle := weight_le_fieldsWeight hfield
    omega
  size := by
    have hsize := hlight.size
    rw [Value.size] at hsize
    have hle := size_le_fieldsSize hfield
    omega

end Value

/-! ## Types where the order does not matter -/

namespace Scope

theorem Opens.isWhole {scope inner : Scope σ} {type : CandidateType σ} {schema : Schema σ}
    (hopens : scope.Opens type inner schema) : type.isWhole = false := by
  cases hopens <;> rfl

/-- Whole types are read in their own scope as they are. -/
theorem reading_of_whole {scope : Scope σ} {place : Place} {types : List (CandidateType σ)}
    (hwhole : ∀ type ∈ types, type.isWhole = true) {isDocument : Bool} {choice : Choice σ}
    (hchoice : choice ∈ scope.choices place types isDocument) :
    choice.reading.type.isWhole = true := by
  obtain ⟨htype, hreading⟩ := mem_choices.mp hchoice
  have htypeWhole := hwhole _ htype
  rw [readings_of_ne_model (fun name hname => by rw [hname] at htypeWhole; cases htypeWhole),
    List.mem_singleton] at hreading
  rw [hreading]
  exact htypeWhole

end Scope

/-- With a rounding, the scores of values that are read as fitting types do not depend on the order
of fields, if there is another order at all. -/
structure Score.Orderless (reorders : Prop) (round : Rat → Rat)
    (fits : Scope σ → CandidateType σ → Prop) : Prop where
  element : ∀ {scope elements place isDocument choice}, fits scope (.array elements) →
    choice ∈ scope.choices place elements isDocument →
      fits choice.reading.scope choice.reading.type
  field : ∀ {scope inner : Scope σ} {type schema field place isDocument choice}, fits scope type →
    scope.Opens type inner schema → field ∈ schema.attributes →
      choice ∈ inner.choices place field.types isDocument →
        fits choice.reading.scope choice.reading.type
  average : reorders → ∀ {scope inner : Scope σ} {type schema}, fits scope type →
    scope.Opens type inner schema → ∀ {fields others : List (String × Value)},
      fields.Perm others → (Value.map others).size < 2 ^ 52 → ∀ place,
        Score.average round (Value.fieldScores round ⟨inner, place, schema⟩ fields) =
          Score.average round (Value.fieldScores round ⟨inner, place, schema⟩ others)

namespace Score

/-- Fields that stay in order are in no other order. -/
theorem orderless_kept {reorders : Prop} (hkept : ¬ reorders) (round : Rat → Rat) :
    Orderless (σ := σ) reorders round fun _ _ => True where
  element := fun _ _ => trivial
  field := fun _ _ _ _ => trivial
  average := fun hreorders => absurd hreorders hkept

/-- Exact scores do not depend on the order. -/
theorem orderless_exact (reorders : Prop) :
    Orderless (σ := σ) reorders id fun _ _ => True where
  element := fun _ _ => trivial
  field := fun _ _ _ _ => trivial
  average := fun _ _ _ _ _ _ _ _ _ hperm _ _ =>
    average_id_of_perm (Value.fieldScores_perm hperm)

/-- The fields of a document with scalar attributes score zero, a half or one. -/
theorem isHalves_fieldScores {frame : Frame σ}
    (hwhole : ∀ field ∈ frame.schema.attributes, ∀ type ∈ field.types, type.isWhole = true)
    (fields : List (String × Value)) (round : Rat → Rat) :
    ∀ score ∈ Value.fieldScores round frame fields, IsHalves score := by
  induction fields with
  | nil => exact fun _ hscore => absurd hscore List.not_mem_nil
  | cons field rest ih =>
      rw [Value.fieldScores]
      split
      · exact ih
      · refine List.forall_mem_cons.mpr ⟨?_, ih⟩
        cases hnative : frame.schema.nativeAttribute? field.1 with
        | none =>
            dsimp only
            unfold Frame.unknownScore
            split
            · exact ⟨0, by decide, by simp⟩
            · exact ⟨1, by decide, by simp⟩
        | some declared =>
            dsimp only
            refine IsHalves.best fun score hscore => ?_
            rw [Scope.readings_eq_map, List.map_map] at hscore
            obtain ⟨choice, hchoice, rfl⟩ := List.mem_map.mp hscore
            have htype := Scope.reading_of_whole
              (hwhole declared (SchemaOf.mem_of_nativeAttribute? hnative)) hchoice
            rw [Function.comp_apply, Value.score_of_whole htype]
            exact isHalves_ofBool _

theorem orderless_level (reorders : Prop) :
    Orderless (σ := σ) reorders rounded Scope.Level where
  element := by
    intro scope elements place isDocument choice hlevel hchoice
    cases hlevel with
    | whole hwhole => cases hwhole
    | array helements => exact helements place isDocument choice hchoice
    | document hopens => cases hopens
  field := by
    intro scope inner type schema field place isDocument choice hlevel hopens hfield hchoice
    cases hlevel with
    | whole hwhole => rw [hopens.isWhole] at hwhole; cases hwhole
    | set => cases hopens
    | array => cases hopens
    | document hother hwhole =>
        obtain ⟨rfl, rfl⟩ := hopens.unique hother
        exact .whole (Scope.reading_of_whole (hwhole field hfield) hchoice)
  average := by
    intro _ scope inner type schema hlevel hopens fields others hperm hsize place
    cases hlevel with
    | whole hwhole => rw [hopens.isWhole] at hwhole; cases hwhole
    | set => cases hopens
    | array => cases hopens
    | document hother hwhole =>
        obtain ⟨rfl, rfl⟩ := hopens.unique hother
        refine average_rounded_of_perm (Value.fieldScores_perm hperm)
          (isHalves_fieldScores hwhole fields rounded) ?_
        refine (Value.length_fieldScores_le rounded _ fields).trans_lt ?_
        have hlength := Value.length_le_fieldsSize others
        rw [Value.size] at hsize
        rw [hperm.length_eq]
        omega

end Score

/-! ## Scores of respelled values -/

section Scores

variable {reach : Reach σ} {reorders : Prop} {round : Rat → Rat}
  {fits : Scope σ → CandidateType σ → Prop}

/-- Two readings of a value at the same spot, where other spellings of the value score the same. -/
def Value.ScoresAlike (reach : Reach σ) (reorders : Prop) (round : Rat → Rat)
    (fits : Scope σ → CandidateType σ → Prop) (value : Value) : Prop :=
  ∀ {scope : Scope σ} {type : CandidateType σ} {other : Value} {near far : Place},
    scope.RespellsAs reorders type value other → fits scope type → reach.types scope type →
      reach.SameSpot near far → (reorders → other.size < 2 ^ 52) →
        value.score round ⟨scope, near, type⟩ = other.score round ⟨scope, far, type⟩

/-- All choices for such a value have the same scores. -/
theorem Value.ScoresAlike.choices (hblind : reach.BlindTo reach.SameSpot) {value other : Value}
    (hvalue : value.ScoresAlike reach reorders round fits) {scope : Scope σ}
    {types : List (CandidateType σ)} (hform : value.SameForm other)
    (hread : ∀ place, ∀ choice ∈ scope.choices place types value.isDocument,
      choice.reading.scope.RespellsAs reorders choice.reading.type value other)
    (hfits : ∀ place, ∀ choice ∈ scope.choices place types value.isDocument,
      fits choice.reading.scope choice.reading.type)
    (huses : ∀ type ∈ types, reach.types scope type) {near far : Place}
    (hplaces : reach.SameSpot near far) (hsize : reorders → other.size < 2 ^ 52) :
    List.Forall₂ (fun choice counterpart =>
        (choice ∈ scope.choices near types value.isDocument ∧
          reach.SameChoice reach.SameSpot choice counterpart) ∧
        value.score round choice.reading = other.score round counterpart.reading)
      (scope.choices near types value.isDocument) (scope.choices far types other.isDocument) := by
  rw [hform.isDocument]
  have hchoices := Scope.choices_at hblind.toCompatible hplaces huses value.isDocument
  have hmem := (List.forall₂_and_left (scope.choices near types value.isDocument) _).mpr
    ⟨fun _ hmem => hmem, hchoices⟩
  refine hmem.imp fun choice counterpart hchoice => ⟨hchoice, ?_⟩
  obtain ⟨hmem, -, hreading⟩ := hchoice
  have hrespells := hread near choice hmem
  have hfits := hfits near choice hmem
  obtain ⟨_, inner, place, type⟩ := choice
  obtain ⟨_, _, other, _⟩ := counterpart
  obtain ⟨rfl, rfl, huses, hplaces⟩ := hreading
  exact hvalue hrespells hfits huses hplaces hsize

/-- So its best score is the same. -/
theorem Value.ScoresAlike.scores (hblind : reach.BlindTo reach.SameSpot) {value other : Value}
    (hvalue : value.ScoresAlike reach reorders round fits) {scope : Scope σ}
    {types : List (CandidateType σ)} (hrespells : scope.Respells reorders types value other)
    (hfits : ∀ place, ∀ choice ∈ scope.choices place types value.isDocument,
      fits choice.reading.scope choice.reading.type)
    (huses : ∀ type ∈ types, reach.types scope type) {near far : Place}
    (hplaces : reach.SameSpot near far) (hsize : reorders → other.size < 2 ^ 52) :
    (types.flatMap (scope.readings near value.isDocument)).map (value.score round) =
      (types.flatMap (scope.readings far other.isDocument)).map (other.score round) := by
  cases hrespells with
  | same =>
      exact Value.scores_at round hblind (fun hplaces => Value.score_at round hblind value hplaces)
        huses hplaces _
  | read hform hread =>
      rw [Scope.readings_eq_map, Scope.readings_eq_map, List.map_map, List.map_map]
      exact map_eq_map_of_related (fun _ _ hchoice => hchoice.2)
        (hvalue.choices hblind hform hread hfits huses hplaces hsize)

/-- Values of a kind that a type does not take have no score. -/
theorem Value.score_of_unfit {value other : Value} {reading last : Reading σ}
    (hform : value.SameForm other) (htype : last.type = reading.type)
    (hunfit : value.typeName ∉ reading.type.takes) :
    value.score round reading = other.score round last := by
  have hvalue : value.score round reading = 0 := by
    by_contra hscore
    exact hunfit (Value.mem_takes_of_score_ne_zero hscore)
  have hother : other.score round last = 0 := by
    by_contra hscore
    refine hunfit ?_
    rw [← hform.typeName, ← htype]
    exact Value.mem_takes_of_score_ne_zero hscore
  rw [hvalue, hother]

/-- Members of a set are scalars, so it only matters which of them are lists or maps. -/
theorem Value.memberScores_respelled (hblind : reach.BlindTo reach.SameSpot) {scope : Scope σ}
    {element : CandidateType σ} (huses : reach.types scope (.set element)) (near far : Place)
    {members others : List Value} (hmembers : List.Forall₂ SameForm members others) :
    Value.memberScores round scope near element members =
      Value.memberScores round scope far element others := by
  have helement := hblind.scalarSets scope element huses
  have hscalar : ∀ {member other : Value}, member.SameForm other →
      member.scalarScore element = other.scalarScore element := by
    intro member other hform
    cases hform with
    | same => rfl
    | list => cases element <;> simp_all [scalarScore, CandidateType.isSetElement]
    | map => cases element <;> simp_all [scalarScore, CandidateType.isSetElement]
  rw [memberScores_eq_map round helement, memberScores_eq_map round helement]
  exact map_eq_map_of_related (fun _ _ hform => by rw [hscalar hform]) hmembers

mutual

/-- Values that differ only in spelling fit a type equally well at the same spot. -/
theorem Value.score_respelled (hblind : reach.BlindTo reach.SameSpot)
    (hround : Score.Orderless reorders round fits) :
    ∀ value : Value, value.ScoresAlike reach reorders round fits
  | .list items, scope, type, _, near, far, hrespells, hfits, huses, hplaces, hsize => by
      cases hrespells with
      | same => exact Value.score_at round hblind _ hplaces huses
      | items hitems =>
          simp only [Value.score]
          refine congrArg _ (Value.itemScores_respelled hblind hround items hitems
            (fun _ _ _ hchoice => hround.element hfits hchoice)
            (fun _ htype => reach.element huses htype) hplaces ?_ 0)
          intro hreorders other hother
          have hwhole := hsize hreorders
          rw [Value.size] at hwhole
          have hle := Value.size_le_itemsSize hother
          omega
      | members hmembers =>
          simp only [Value.score]
          rw [Value.memberScores_respelled hblind huses near far hmembers]
      | unfit hform hunfit => exact Value.score_of_unfit hform (by rfl) hunfit
  | .map fields, scope, type, _, near, far, hrespells, hfits, huses, hplaces, hsize => by
      cases hrespells with
      | same => exact Value.score_at round hblind _ hplaces huses
      | @fields _ _ _ _ _ renamed others hopens hfields horder =>
          rcases Scope.enter?_at reach.SameSpot hblind.enter hplaces scope type with
            ⟨_, _, nearer, farther, hother, hnear, hfar, hinner⟩ | ⟨hnear, hfar⟩
          · obtain ⟨rfl, rfl⟩ := hopens.unique hother
            have hsizes : reorders → ∀ field ∈ renamed, field.2.size < 2 ^ 52 := by
              intro hreorders field hfield
              have hmem : field ∈ others := by
                rcases horder with rfl | ⟨-, hperm, -⟩
                · exact hfield
                · exact hperm.mem_iff.mpr hfield
              have hwhole := hsize hreorders
              rw [Value.size] at hwhole
              have hle := Value.size_le_fieldsSize hmem
              omega
            have hrenamed := Value.fieldScores_respelled hblind hround fields hfields
              (fun _ hfield _ _ _ hchoice => hround.field hfits hopens hfield hchoice)
              (reach.inside huses hopens) hinner hsizes
            simp only [Value.score, Reading.enter?, hnear, hfar, hrenamed]
            rcases horder with rfl | ⟨hreorders, hperm, -⟩
            · rfl
            · exact hround.average hreorders hfits hopens hperm.symm (hsize hreorders) farther
          · obtain ⟨_, henter⟩ := hopens.enter? near
            rw [hnear] at henter
            cases henter
      | unfit hform hunfit => exact Value.score_of_unfit hform (by rfl) hunfit
  | .undefined, _, _, _, _, _, hrespells, _, huses, hplaces, _
  | .null, _, _, _, _, _, hrespells, _, huses, hplaces, _
  | .bool _, _, _, _, _, _, hrespells, _, huses, hplaces, _
  | .number _, _, _, _, _, _, hrespells, _, huses, hplaces, _
  | .string _, _, _, _, _, _, hrespells, _, huses, hplaces, _
  | .binary _, _, _, _, _, _, hrespells, _, huses, hplaces, _
  | .date _, _, _, _, _, _, hrespells, _, huses, hplaces, _
  | .set _, _, _, _, _, _, hrespells, _, huses, hplaces, _ => by
      cases hrespells with
      | same => exact Value.score_at round hblind _ hplaces huses
      | unfit hform hunfit => exact Value.score_of_unfit hform (by rfl) hunfit

theorem Value.itemScores_respelled (hblind : reach.BlindTo reach.SameSpot)
    (hround : Score.Orderless reorders round fits) :
    ∀ (items : List Value) {others : List Value} {scope : Scope σ}
      {elements : List (CandidateType σ)} {near far : Place},
      scope.RespellsItems reorders elements items others →
      (∀ place isDocument, ∀ choice ∈ scope.choices place elements isDocument,
        fits choice.reading.scope choice.reading.type) →
      (∀ type ∈ elements, reach.types scope type) → reach.SameSpot near far →
      (reorders → ∀ other ∈ others, other.size < 2 ^ 52) → ∀ index,
        Value.itemScores round scope near elements index items =
          Value.itemScores round scope far elements index others
  | [], _, _, _, _, _, .nil, _, _, _, _, _ => rfl
  | item :: rest, _, scope, elements, near, far, .cons hitem hrest, hfits, huses, hplaces, hsizes,
      index => by
      have hscores := Value.ScoresAlike.scores hblind (Value.score_respelled hblind hround item)
        hitem (fun place choice hchoice => hfits place _ choice hchoice) huses
        (hblind.item hplaces index)
        (fun hreorders => (List.forall_mem_cons.mp (hsizes hreorders)).1)
      rw [Value.itemScores, Value.itemScores, hscores,
        Value.itemScores_respelled hblind hround rest hrest hfits huses hplaces
          (fun hreorders => (List.forall_mem_cons.mp (hsizes hreorders)).2) (index + 1)]

theorem Value.fieldScores_respelled (hblind : reach.BlindTo reach.SameSpot)
    (hround : Score.Orderless reorders round fits) :
    ∀ (fields : List (String × Value)) {renamed : List (String × Value)} {scope : Scope σ}
      {schema : Schema σ} {near far : Place}, scope.RespellsFields reorders schema fields renamed →
      (∀ field ∈ schema.attributes, ∀ place isDocument,
        ∀ choice ∈ scope.choices place field.types isDocument,
          fits choice.reading.scope choice.reading.type) →
      reach.schemas scope schema → reach.SameSpot near far →
      (reorders → ∀ field ∈ renamed, field.2.size < 2 ^ 52) →
        Value.fieldScores round ⟨scope, near, schema⟩ fields =
          Value.fieldScores round ⟨scope, far, schema⟩ renamed
  | [], _, _, _, _, _, .nil, _, _, _, _ => rfl
  | (key, value) :: rest, _, scope, schema, near, far, hfields, hfits, hreaches, hplaces,
      hsizes => by
      cases hfields with
      | undeclared hkey hrest =>
          rw [Value.fieldScores, Value.fieldScores, Value.fieldScores_respelled hblind hround rest
            hrest hfits hreaches hplaces
            (fun hreorders => (List.forall_mem_cons.mp (hsizes hreorders)).2)]
          simp only [hkey, Frame.unknownScore,
            hblind.unknownMatch (hblind.child hplaces key) hreaches]
      | @declared _ _ field _ name _ other _ others hkey hname hvalue hrest =>
          have hfield := SchemaOf.mem_of_nativeAttribute? hkey
          have hscores := Value.ScoresAlike.scores hblind
            (Value.score_respelled hblind hround value) hvalue
            (fun place choice hchoice => hfits field hfield place _ choice hchoice)
            (fun _ htype => reach.field hreaches hfield htype)
            (.declared hplaces hreaches hkey hname)
            (fun hreorders => (List.forall_mem_cons.mp (hsizes hreorders)).1)
          rw [Value.fieldScores, Value.fieldScores, Value.fieldScores_respelled hblind hround rest
            hrest hfits hreaches hplaces
            (fun hreorders => (List.forall_mem_cons.mp (hsizes hreorders)).2)]
          simp only [hkey, hname, hvalue.sameForm.isUndefined, hscores]

end

end Scores

/-! ## The chosen type -/

namespace Scope

variable {reach : Reach σ} {scope : Scope σ} {types : List (CandidateType σ)} {value other : Value}
  {near far : Place}

/-- Where types are told apart, it only matters which scores are above zero. -/
theorem ToldApart.agree_resolve {alike : Place → Place → Prop} (hapart : scope.ToldApart types)
    (hscores : List.Forall₂ (fun choice counterpart => reach.SameChoice alike choice counterpart ∧
        (0 < value.score Score.rounded choice.reading ↔
          0 < other.score Score.rounded counterpart.reading))
      (scope.choices near types value.isDocument) (scope.choices far types other.isDocument)) :
    Except.Agree (reach.SameChoice alike) (scope.resolve near types value)
      (scope.resolve far types other) := by
  cases hvalue : scope.resolve near types value with
  | ok choice =>
      obtain ⟨hmem, hpos⟩ := hapart.resolve_iff.mp hvalue
      obtain ⟨counterpart, hcounterpart, hsame, hiff⟩ := exists_related_left hscores hmem
      rw [hapart.resolve_iff.mpr ⟨hcounterpart, hiff.mp hpos⟩]
      exact .ok hsame
  | error cause =>
      cases hother : scope.resolve far types other with
      | error other => exact .error cause other
      | ok counterpart =>
          obtain ⟨hmem, hpos⟩ := hapart.resolve_iff.mp hother
          obtain ⟨choice, hchoice, -, hiff⟩ := exists_related_right hscores hmem
          rw [hapart.resolve_iff.mpr ⟨hchoice, hiff.mpr hpos⟩] at hvalue
          cases hvalue

/-- Whatever the spelling, a value takes the same type at the same spot. -/
theorem agree_resolve_respelled (hblind : reach.BlindTo reach.SameSpot) {reorders : Prop}
    (hrespells : scope.Respells reorders types value other)
    (hdecided : reorders → scope.Decided types) (hvalue : reorders → value.Light)
    (hother : reorders → other.Light) (huses : ∀ type ∈ types, reach.types scope type)
    (hplaces : reach.SameSpot near far) :
    Except.Agree (reach.SameChoice reach.SameSpot) (scope.resolve near types value)
      (scope.resolve far types other) := by
  have hsize : reorders → other.size < 2 ^ 52 := fun hreorders => (hother hreorders).size
  cases hrespells with
  | same => exact resolve_at hblind hplaces huses value
  | read hform hread =>
      have hrounded : ∀ {fits : Scope σ → CandidateType σ → Prop},
          Score.Orderless reorders Score.rounded fits →
          (∀ place, ∀ choice ∈ scope.choices place types value.isDocument,
            fits choice.reading.scope choice.reading.type) →
          Except.Agree (reach.SameChoice reach.SameSpot) (scope.resolve near types value)
            (scope.resolve far types other) := by
        intro fits hround hfits
        have hscores := Value.ScoresAlike.choices hblind (Value.score_respelled hblind hround value)
          hform hread hfits huses hplaces hsize
        exact agree_resolve (hscores.imp fun _ _ hchoice => ⟨hchoice.1.2, hchoice.2⟩)
      by_cases hreorders : reorders
      · rcases hdecided hreorders with hapart | hlevel
        · have hscores := Value.ScoresAlike.choices hblind
            (Value.score_respelled hblind (Score.orderless_exact reorders) value) hform hread
            (fun _ _ _ => trivial) huses hplaces hsize
          refine hapart.agree_resolve (hscores.imp fun choice counterpart hchoice =>
            ⟨hchoice.1.2, ?_⟩)
          rw [(value.near_score (hvalue hreorders).weight choice.reading).pos_iff,
            (other.near_score (hother hreorders).weight counterpart.reading).pos_iff, hchoice.2]
        · exact hrounded (Score.orderless_level reorders) fun place choice hchoice =>
            hlevel place _ choice hchoice
      · exact hrounded (Score.orderless_kept hreorders _) fun _ _ _ => trivial

end Scope

end ItemMapper
