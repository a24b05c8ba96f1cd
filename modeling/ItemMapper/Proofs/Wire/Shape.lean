import ItemMapper.Proofs.Wire.Json

/-!
# Objects that have the shape of an item

An object can be told to be a stored item by its shape alone: `WireValue.isItem?` looks at tags, lists
and maps, and never at what a scalar or a set holds.  What it cannot see is therefore free.
`Json.MembersRefilled` replaces just that, the contents of the tags of scalars and sets, at any depth.

The shape test and the reader go through the same objects independently of each other.  They agree
up to such replacements: the shape stays the same (`hasShape_of_refilled`), it is there wherever an
object can be read (`hasShape_of_hasForm`), and an object with the shape becomes readable if its
scalars and sets are filled suitably (`exists_refilled`).
-/

namespace ItemMapper

namespace Json

mutual

/-- A JSON value where a stored value should be, before and after some contents of scalar and set
tags in it are replaced. -/
inductive Refilled : Json → Json → Prop where
  | same {json : Json} : Refilled json json
  | leaf {type : WireType} {content other : Json} (hlist : type ≠ .list) (hmap : type ≠ .map) :
      Refilled (.object [(type.tag, content)]) (.object [(type.tag, other)])
  | list {items others : List Json} (hitems : ItemsRefilled items others) :
      Refilled (.object [(WireType.list.tag, .array items)])
        (.object [(WireType.list.tag, .array others)])
  | map {members others : List (String × Json)} (hmembers : MembersRefilled members others) :
      Refilled (.object [(WireType.map.tag, .object members)])
        (.object [(WireType.map.tag, .object others)])

/-- The items of a list before and after. -/
inductive ItemsRefilled : List Json → List Json → Prop where
  | nil : ItemsRefilled [] []
  | cons {item other : Json} {rest others : List Json} (hitem : Refilled item other)
      (hrest : ItemsRefilled rest others) : ItemsRefilled (item :: rest) (other :: others)

/-- The members of an item or of a map before and after.  Their names stay. -/
inductive MembersRefilled : List (String × Json) → List (String × Json) → Prop where
  | nil : MembersRefilled [] []
  | cons {name : String} {value other : Json} {rest others : List (String × Json)}
      (hvalue : Refilled value other) (hrest : MembersRefilled rest others) :
      MembersRefilled ((name, value) :: rest) ((name, other) :: others)

end

/-- Every tag of a scalar or a set has some content. -/
theorem exists_hasContent {type : WireType} (hlist : type ≠ .list) (hmap : type ≠ .map) :
    ∃ content, HasContent type content := by
  have hcanonical : Base64.Canonical "".toList := WireValue.canonical_iff_bytesOf.mpr ⟨[], rfl⟩
  cases type with
  | string => exact ⟨_, .string ""⟩
  | number => exact ⟨_, .number ""⟩
  | binary => exact ⟨_, .binary hcanonical⟩
  | stringSet => exact ⟨_, .stringSet []⟩
  | numberSet => exact ⟨_, .numberSet []⟩
  | binarySet => exact ⟨_, @HasContent.binarySet [] (by simp)⟩
  | boolean => exact ⟨_, .boolean true⟩
  | null => exact ⟨_, .null true⟩
  | list => exact absurd rfl hlist
  | map => exact absurd rfl hmap

end Json

namespace WireValue

/-! ## The shape of a stored value -/

theorem hasShape_tagged (type : WireType) (content : Json) :
    hasShape (.object [(type.tag, content)]) = contentHasShape type content := by
  rw [hasShape, WireType.ofTag?_tag]

/-- The content of scalars and sets is not looked at. -/
theorem contentHasShape_leaf {type : WireType} (hlist : type ≠ .list) (hmap : type ≠ .map)
    (content : Json) : contentHasShape type content = true := by
  cases content <;> cases type <;> simp_all [contentHasShape]

theorem hasShape_list (items : List Json) :
    hasShape (.object [(WireType.list.tag, .array items)]) = allHaveShape items := by
  rw [hasShape_tagged, contentHasShape]

theorem hasShape_map (members : List (String × Json)) :
    hasShape (.object [(WireType.map.tag, .object members)]) = allMembersHaveShape members := by
  rw [hasShape_tagged, contentHasShape]

theorem allHaveShape_iff {items : List Json} :
    allHaveShape items = true ↔ ∀ item ∈ items, hasShape item = true := by
  induction items with
  | nil => simp [allHaveShape]
  | cons item rest ih => rw [allHaveShape, Bool.and_eq_true, ih, List.forall_mem_cons]

theorem allMembersHaveShape_iff {members : List (String × Json)} :
    allMembersHaveShape members = true ↔ ∀ member ∈ members, hasShape member.2 = true := by
  induction members with
  | nil => simp [allMembersHaveShape]
  | cons member rest ih =>
      rw [allMembersHaveShape, Bool.and_eq_true, ih, List.forall_mem_cons]

/-! ## What can be read has the shape -/

mutual

theorem hasShape_of_hasForm : ∀ {json : Json}, json.HasForm → hasShape json = true
  | _, .tagged hcontent => by
      rw [hasShape_tagged]
      exact contentHasShape_of_hasContent hcontent

theorem contentHasShape_of_hasContent : ∀ {type : WireType} {content : Json},
    Json.HasContent type content → contentHasShape type content = true
  | _, _, .list hitems => by
      rw [contentHasShape, allHaveShape_iff]
      exact fun item hitem => hasShape_of_hasForm (hitems item hitem)
  | _, _, .map hmembers => by
      rw [contentHasShape, allMembersHaveShape_iff]
      exact fun member hmember => hasShape_of_hasForm (hmembers member hmember)
  | _, _, .string _ | _, _, .number _ | _, _, .binary _ | _, _, .stringSet _ | _, _, .numberSet _
  | _, _, .binarySet _ | _, _, .boolean _ | _, _, .null _ => by simp [contentHasShape]

end

mutual

/-- The JSON form of a stored value has the shape, also where a map has fields in disorder. -/
theorem hasShape_toJson : ∀ value : WireValue, hasShape value.toJson = true
  | .list items => by
      rw [toJson, tagged, hasShape_list]
      exact allHaveShape_itemsToJson items
  | .map fields => by
      rw [toJson, tagged, hasShape_map]
      exact allMembersHaveShape_fieldsToJson fields
  | .string _ | .number _ | .binary _ | .stringSet _ | .numberSet _ | .binarySet _
  | .boolean _ | .null _ => by
      rw [toJson, tagged, hasShape_tagged, contentHasShape_leaf (by simp) (by simp)]

theorem allHaveShape_itemsToJson : ∀ items : List WireValue, allHaveShape (itemsToJson items) = true
  | [] => rfl
  | item :: rest => by
      rw [itemsToJson, allHaveShape, hasShape_toJson item, allHaveShape_itemsToJson rest]
      rfl

theorem allMembersHaveShape_fieldsToJson : ∀ fields : List (String × WireValue),
    allMembersHaveShape (fieldsToJson fields) = true
  | [] => rfl
  | (key, value) :: rest => by
      rw [fieldsToJson, allMembersHaveShape, hasShape_toJson value,
        allMembersHaveShape_fieldsToJson rest]
      rfl

end

/-! ## Replaced contents leave the shape as it is -/

mutual

theorem hasShape_of_refilled : ∀ {json other : Json}, json.Refilled other →
    hasShape json = hasShape other
  | _, _, .same => rfl
  | _, _, .leaf hlist hmap => by
      rw [hasShape_tagged, hasShape_tagged, contentHasShape_leaf hlist hmap,
        contentHasShape_leaf hlist hmap]
  | _, _, .list hitems => by
      rw [hasShape_list, hasShape_list, allHaveShape_of_refilled hitems]
  | _, _, .map hmembers => by
      rw [hasShape_map, hasShape_map, allMembersHaveShape_of_refilled hmembers]

theorem allHaveShape_of_refilled : ∀ {items others : List Json}, Json.ItemsRefilled items others →
    allHaveShape items = allHaveShape others
  | _, _, .nil => rfl
  | _, _, .cons hitem hrest => by
      rw [allHaveShape, allHaveShape, hasShape_of_refilled hitem, allHaveShape_of_refilled hrest]

theorem allMembersHaveShape_of_refilled : ∀ {members others : List (String × Json)},
    Json.MembersRefilled members others → allMembersHaveShape members = allMembersHaveShape others
  | _, _, .nil => rfl
  | _, _, .cons hvalue hrest => by
      rw [allMembersHaveShape, allMembersHaveShape, hasShape_of_refilled hvalue,
        allMembersHaveShape_of_refilled hrest]

end

/-! ## What has the shape can be made readable -/

mutual

theorem exists_refilled : ∀ {json : Json}, hasShape json = true →
    ∃ filled, json.Refilled filled ∧ filled.HasForm
  | .object [(tag, content)], hshape => by
      rw [hasShape] at hshape
      split at hshape
      · contradiction
      · next type htag =>
          obtain rfl := WireType.tag_of_ofTag? htag
          obtain ⟨filled, hfilled, hcontent⟩ := exists_contentRefilled hshape
          exact ⟨_, hfilled, .tagged hcontent⟩

theorem exists_contentRefilled : ∀ {type : WireType} {content : Json},
    contentHasShape type content = true → ∃ filled,
      Json.Refilled (.object [(type.tag, content)]) (.object [(type.tag, filled)]) ∧
        Json.HasContent type filled
  | type, content, hshape => by
      by_cases hlist : type = .list
      · subst hlist
        match content, hshape with
        | .array items, hshape =>
            rw [contentHasShape] at hshape
            obtain ⟨filled, hfilled, hforms⟩ := exists_itemsRefilled hshape
            exact ⟨.array filled, .list hfilled, .list hforms⟩
      by_cases hmap : type = .map
      · subst hmap
        match content, hshape with
        | .object members, hshape =>
            rw [contentHasShape] at hshape
            obtain ⟨filled, hfilled, hforms⟩ := exists_membersRefilled hshape
            exact ⟨.object filled, .map hfilled, .map hforms⟩
      obtain ⟨filled, hcontent⟩ := Json.exists_hasContent hlist hmap
      exact ⟨filled, .leaf hlist hmap, hcontent⟩

theorem exists_itemsRefilled : ∀ {items : List Json}, allHaveShape items = true →
    ∃ filled, Json.ItemsRefilled items filled ∧ ∀ item ∈ filled, item.HasForm
  | [], _ => ⟨[], .nil, by simp⟩
  | item :: rest, hshape => by
      rw [allHaveShape, Bool.and_eq_true] at hshape
      obtain ⟨first, hfirst, hform⟩ := exists_refilled hshape.1
      obtain ⟨others, hothers, hforms⟩ := exists_itemsRefilled hshape.2
      exact ⟨first :: others, .cons hfirst hothers, List.forall_mem_cons.mpr ⟨hform, hforms⟩⟩

theorem exists_membersRefilled : ∀ {members : List (String × Json)},
    allMembersHaveShape members = true →
      ∃ filled, Json.MembersRefilled members filled ∧ ∀ member ∈ filled, member.2.HasForm
  | [], _ => ⟨[], .nil, by simp⟩
  | (name, value) :: rest, hshape => by
      rw [allMembersHaveShape, Bool.and_eq_true] at hshape
      obtain ⟨first, hfirst, hform⟩ := exists_refilled hshape.1
      obtain ⟨others, hothers, hforms⟩ := exists_membersRefilled hshape.2
      exact ⟨(name, first) :: others, .cons hfirst hothers,
        List.forall_mem_cons.mpr ⟨hform, hforms⟩⟩

end

/-! ## Recognising items -/

/-- The shape is that of what the reader accepts, up to the contents of scalars and sets. -/
theorem allMembersHaveShape_iff_exists_read {members : Fields Json} :
    allMembersHaveShape members = true ↔ ∃ filled, Json.MembersRefilled members filled ∧
      ∀ member ∈ filled, ∃ value, ofJson member.2 = .ok value := by
  have hread : ∀ {json : Json}, (∃ value, ofJson json = .ok value) ↔ json.HasForm :=
    ⟨fun ⟨_, hread⟩ => (hasForm_of_ofScan hread).1, exists_ofScan⟩
  simp only [hread]
  constructor
  · exact exists_membersRefilled
  · rintro ⟨filled, hfilled, hforms⟩
    rw [allMembersHaveShape_of_refilled hfilled, allMembersHaveShape_iff]
    exact fun member hmember => hasShape_of_hasForm (hforms member hmember)

/-- Only the empty object is undecided.  Any other is recognised as an item exactly if the contents
of its scalar and set tags can be replaced so that every member can be read, and the JSON form of an
item always is. -/
theorem isItem?_exact (members : Fields Json) :
    (isItem? members = none ↔ members = []) ∧
      (isItem? members = some true ↔ members ≠ [] ∧
        ∃ filled, Json.MembersRefilled members filled ∧
          ∀ member ∈ filled, ∃ value, ofJson member.2 = .ok value) ∧
      (isItem? members = some false ↔ members ≠ [] ∧
        ¬ ∃ filled, Json.MembersRefilled members filled ∧
          ∀ member ∈ filled, ∃ value, ofJson member.2 = .ok value) ∧
      ∀ item : Item, isItem? (fieldsToJson item) = if item.isEmpty then none else some true := by
  have hcases : isItem? members =
      if members = [] then none else some (allMembersHaveShape members) := by
    simp [isItem?]
  rw [← allMembersHaveShape_iff_exists_read, hcases]
  refine ⟨by simp, by simp, by simp, fun item => ?_⟩
  rw [isItem?, allMembersHaveShape_fieldsToJson, fieldsToJson_eq_map, List.isEmpty_map]

/-- The content of a number is not looked at, but a list must be one, also where it is empty. -/
example :
    isItem? [("n", .object [("N", .bool true)])] = some true ∧
      isItem? [("l", .object [("L", .array [])]), ("m", .object [("M", .object [])])] = some true ∧
      isItem? [("l", .object [("L", .object [])])] = some false :=
  ⟨rfl, rfl, rfl⟩

end WireValue

end ItemMapper
