import ItemMapper.Proofs.Fields
import ItemMapper.Proofs.Pipeline
import ItemMapper.Proofs.Text.Base64
import ItemMapper.Wire.Json

/-!
# Stored values and their JSON forms

`Json.HasForm` is the grammar of the JSON forms of stored values, stated without a reader: an object
with exactly one member, whose key is a tag, and the content that this tag asks for, lists and maps
holding such forms again.

* `WireValue.ofScan_toJson`: the form of a value is read as this value.
* `WireValue.hasForm_of_ofScan`: what is read has a form, and writing the value gives the JSON value
  that was read.
* `WireValue.exists_ofScan`: every form is read.

`WireValue.json_codec_exact` puts them together.  Each of them is proved along the data, with the
items of lists and the fields of maps at the same time.
-/

namespace ItemMapper

namespace Json

mutual

/-- The JSON forms of stored values: an object whose only key is a tag, with the content that this
tag asks for. -/
inductive HasForm : Json → Prop where
  | tagged {type : WireType} {content : Json} (hcontent : HasContent type content) :
      HasForm (.object [(type.tag, content)])

/-- The content that a tag asks for. -/
inductive HasContent : WireType → Json → Prop where
  | string (text : String) : HasContent .string (.string text)
  | number (text : String) : HasContent .number (.string text)
  | binary {text : String} (hcanonical : Base64.Canonical text.toList) :
      HasContent .binary (.string text)
  | stringSet (texts : List String) : HasContent .stringSet (.array (texts.map .string))
  | numberSet (texts : List String) : HasContent .numberSet (.array (texts.map .string))
  | binarySet {texts : List String} (hcanonical : ∀ text ∈ texts, Base64.Canonical text.toList) :
      HasContent .binarySet (.array (texts.map .string))
  | boolean (value : Bool) : HasContent .boolean (.bool value)
  | null (value : Bool) : HasContent .null (.bool value)
  | list {items : List Json} (hitems : ∀ item ∈ items, HasForm item) :
      HasContent .list (.array items)
  | map {members : List (String × Json)} (hmembers : ∀ member ∈ members, HasForm member.2) :
      HasContent .map (.object members)

end

end Json

namespace WireValue

/-! ## Texts and bytes -/

theorem bytesOf_eq_ok {text : String} {bytes : List UInt8} :
    bytesOf text = .ok bytes ↔ text = Base64.encode bytes := by
  rw [← Base64.decode?_eq_some_iff, bytesOf]
  split <;> simp_all

theorem mapM_bytesOf_eq_ok {texts : List String} {members : List (List UInt8)} :
    texts.mapM bytesOf = .ok members ↔ texts = members.map Base64.encode := by
  simp only [Except.mapM_eq_ok, bytesOf_eq_ok]
  rw [← List.forall₂_eq_eq_eq, List.forall₂_map_right_iff]

theorem textOf_ofJson_eq_ok {json : Json} {text : String} :
    textOf (.ofJson json) = .ok text ↔ json = .string text := by
  cases json <;> simp [Scan.ofJson, textOf]

theorem ofItems_eq_map (items : List Json) : Scan.ofItems items = items.map .ofJson := by
  induction items with
  | nil => rfl
  | cons item rest ih => rw [Scan.ofItems, ih, List.map_cons]

theorem textsOf_ofItems_eq_ok {items : List Json} {texts : List String} :
    textsOf (.array (Scan.ofItems items) true) = .ok texts ↔ items = texts.map .string := by
  simp only [textsOf, closing, if_true, Except.bind_eq_ok, Except.ok.injEq, exists_eq_right,
    Except.mapM_eq_ok, ofItems_eq_map, List.forall₂_map_left_iff, textOf_ofJson_eq_ok]
  rw [← List.forall₂_eq_eq_eq, List.forall₂_map_right_iff]

theorem canonical_iff_bytesOf {text : String} :
    Base64.Canonical text.toList ↔ ∃ bytes, bytesOf text = .ok bytes := by
  simp only [Base64.canonical_iff, bytesOf_eq_ok]

theorem exists_mapM_bytesOf {texts : List String}
    (hcanonical : ∀ text ∈ texts, Base64.Canonical text.toList) :
    ∃ members, texts.mapM bytesOf = .ok members := by
  simp only [canonical_iff_bytesOf] at hcanonical
  simpa only [Except.mapM_eq_ok] using exists_forall₂ hcanonical

theorem canonical_of_mapM_bytesOf {texts : List String} {members : List (List UInt8)}
    (hread : texts.mapM bytesOf = .ok members) : ∀ text ∈ texts, Base64.Canonical text.toList := by
  intro text htext
  obtain ⟨bytes, -, hbytes⟩ := exists_related_left (Except.mapM_eq_ok.mp hread) htext
  exact canonical_iff_bytesOf.mpr ⟨bytes, hbytes⟩

theorem fieldsToJson_eq_map (fields : List (String × WireValue)) :
    fieldsToJson fields = fields.map fun field => (field.1, toJson field.2) := by
  induction fields with
  | nil => rfl
  | cons field rest ih => rw [fieldsToJson, ih, List.map_cons]

theorem sorted_of_fieldsToJson {fields : List (String × WireValue)}
    (hsorted : Fields.Sorted (fieldsToJson fields)) : Fields.Sorted fields := by
  rwa [fieldsToJson_eq_map, Fields.Sorted, List.pairwise_map] at hsorted

/-! ## Reading the content under a tag -/

theorem ofScan_tagged (type : WireType) (content : Json) :
    ofScan (.ofJson (tagged type content)) = ofContent type (.ofJson content) := by
  simp only [tagged, Scan.ofJson, Scan.ofMembers, ofScan, WireType.ofTag?_tag, List.isEmpty_nil,
    if_true, closing]
  exact bind_pure _

theorem ofContent_binary (text : String) :
    ofContent .binary (.ofJson (.string text)) = (do return .binary (← bytesOf text)) := by
  simp only [Scan.ofJson, ofContent, textOf]
  rfl

theorem ofContent_stringSet (texts : List String) :
    ofContent .stringSet (.ofJson (.array (texts.map .string))) = .ok (.stringSet texts) := by
  simp only [Scan.ofJson, ofContent, textsOf_ofItems_eq_ok.mpr rfl]
  rfl

theorem ofContent_numberSet (texts : List String) :
    ofContent .numberSet (.ofJson (.array (texts.map .string))) = .ok (.numberSet texts) := by
  simp only [Scan.ofJson, ofContent, textsOf_ofItems_eq_ok.mpr rfl]
  rfl

theorem ofContent_binarySet (texts : List String) :
    ofContent .binarySet (.ofJson (.array (texts.map .string))) =
      (do return .binarySet (← texts.mapM bytesOf)) := by
  simp only [Scan.ofJson, ofContent, textsOf_ofItems_eq_ok.mpr rfl]
  rfl

theorem ofContent_list (items : List Json) :
    ofContent .list (.ofJson (.array items)) =
      (do return .list (← itemsOfScan (Scan.ofItems items))) := by
  simp only [Scan.ofJson, ofContent, closing, if_true]
  rfl

theorem ofContent_map (members : List (String × Json)) :
    ofContent .map (.ofJson (.object members)) =
      (do return .map (Fields.ofList (← fieldsOfScan (Scan.ofMembers members)))) := by
  simp only [Scan.ofJson, ofContent, closing, if_true]
  rfl

/-! ## Reading the form that was written -/

mutual

theorem ofScan_toJson : ∀ {value : WireValue}, value.WellFormed →
    ofScan (.ofJson value.toJson) = .ok value
  | .string _, _ | .number _, _ | .boolean _, _ | .null _, _ => rfl
  | .binary bytes, _ => by
      rw [toJson, ofScan_tagged, ofContent_binary, bytesOf_eq_ok.mpr rfl]
      rfl
  | .stringSet members, _ => by
      rw [toJson, ofScan_tagged, ofContent_stringSet]
  | .numberSet members, _ => by
      rw [toJson, ofScan_tagged, ofContent_numberSet]
  | .binarySet members, _ => by
      have htexts : members.map (fun bytes => Json.string (Base64.encode bytes)) =
          (members.map Base64.encode).map .string := List.map_map.symm
      rw [toJson, ofScan_tagged, htexts, ofContent_binarySet, mapM_bytesOf_eq_ok.mpr rfl]
      rfl
  | .list items, hformed => by
      rw [WellFormed] at hformed
      rw [toJson, ofScan_tagged, ofContent_list, itemsOfScan_itemsToJson hformed]
      rfl
  | .map fields, hformed => by
      rw [WellFormed] at hformed
      rw [toJson, ofScan_tagged, ofContent_map, fieldsOfScan_fieldsToJson hformed.2]
      exact congrArg (fun fields => Except.ok (map fields)) (Fields.ofList_of_sorted hformed.1)

theorem itemsOfScan_itemsToJson : ∀ {items : List WireValue}, AllWellFormed items →
    itemsOfScan (Scan.ofItems (itemsToJson items)) = .ok items
  | [], _ => rfl
  | item :: rest, hformed => by
      rw [AllWellFormed] at hformed
      rw [itemsToJson, Scan.ofItems, itemsOfScan, ofScan_toJson hformed.1,
        itemsOfScan_itemsToJson hformed.2]
      rfl

theorem fieldsOfScan_fieldsToJson : ∀ {fields : List (String × WireValue)}, FieldsWellFormed fields →
    fieldsOfScan (Scan.ofMembers (fieldsToJson fields)) = .ok fields
  | [], _ => rfl
  | (key, value) :: rest, hformed => by
      rw [FieldsWellFormed] at hformed
      rw [fieldsToJson, Scan.ofMembers, fieldsOfScan, ofScan_toJson hformed.1,
        fieldsOfScan_fieldsToJson hformed.2]
      rfl

end

/-! ## Writing what was read -/

mutual

theorem hasForm_of_ofScan : ∀ {json : Json} {value : WireValue},
    ofScan (.ofJson json) = .ok value → json.HasForm ∧ (json.WellFormed → value.toJson = json)
  | .null, _, hread | .bool _, _, hread | .number _, _, hread | .string _, _, hread
  | .array _, _, hread | .object [], _, hread => by
      simp [Scan.ofJson, Scan.ofMembers, ofScan] at hread
  | .object [(tag, content)], value, hread => by
      simp only [Scan.ofJson, Scan.ofMembers, ofScan] at hread
      split at hread
      · contradiction
      · next type htag =>
          obtain rfl := WireType.tag_of_ofTag? htag
          simp only [Except.bind_eq_ok, List.isEmpty_nil, if_true, closing, Except.ok.injEq,
            exists_eq_right] at hread
          obtain ⟨hcontent, hsame⟩ := hasContent_of_ofContent hread
          refine ⟨.tagged hcontent, fun hformed => ?_⟩
          rw [Json.WellFormed, Json.MembersWellFormed] at hformed
          exact hsame hformed.2.1
  | .object ((tag, _) :: _ :: _), _, hread => by
      simp only [Scan.ofJson, Scan.ofMembers, ofScan] at hread
      split at hread
      · contradiction
      · simp [Except.bind_eq_ok] at hread

theorem hasContent_of_ofContent : ∀ {type : WireType} {json : Json} {value : WireValue},
    ofContent type (.ofJson json) = .ok value →
      Json.HasContent type json ∧ (json.WellFormed → value.toJson = tagged type json)
  | type, .null, _, hread | type, .number _, _, hread => by
      cases type <;> simp [Scan.ofJson, ofContent, textOf, boolOf, Except.bind_eq_ok] at hread
  | type, .bool flag, value, hread => by
      cases type <;>
        simp only [Scan.ofJson, ofContent, textOf, boolOf, Except.bind_eq_ok, Except.pure_eq_ok,
          Except.ok.injEq, exists_eq_left', reduceCtorEq, false_and, exists_false] at hread
      case boolean => exact hread ▸ ⟨.boolean flag, fun _ => rfl⟩
      case null => exact hread ▸ ⟨.null flag, fun _ => rfl⟩
  | type, .string text, value, hread => by
      cases type <;>
        simp only [Scan.ofJson, ofContent, textOf, boolOf, Except.bind_eq_ok, Except.pure_eq_ok,
          Except.ok.injEq, exists_eq_left', reduceCtorEq, false_and, exists_false] at hread
      case string => exact hread ▸ ⟨.string text, fun _ => rfl⟩
      case number => exact hread ▸ ⟨.number text, fun _ => rfl⟩
      case binary =>
        obtain ⟨bytes, hbytes, rfl⟩ := hread
        refine ⟨.binary (canonical_iff_bytesOf.mpr ⟨bytes, hbytes⟩), fun _ => ?_⟩
        rw [bytesOf_eq_ok.mp hbytes, toJson]
  | type, .array items, value, hread => by
      cases type <;>
        simp only [Scan.ofJson, ofContent, Except.bind_eq_ok, textsOf_ofItems_eq_ok,
          Except.pure_eq_ok, reduceCtorEq] at hread
      case stringSet =>
        obtain ⟨texts, rfl, rfl⟩ := hread
        exact ⟨.stringSet texts, fun _ => rfl⟩
      case numberSet =>
        obtain ⟨texts, rfl, rfl⟩ := hread
        exact ⟨.numberSet texts, fun _ => rfl⟩
      case binarySet =>
        obtain ⟨texts, rfl, members, hmembers, rfl⟩ := hread
        refine ⟨.binarySet (canonical_of_mapM_bytesOf hmembers), fun _ => ?_⟩
        rw [mapM_bytesOf_eq_ok.mp hmembers, List.map_map, toJson]
        rfl
      case list =>
        obtain ⟨values, hvalues, hclosing⟩ := hread
        obtain rfl := Except.ok.inj hclosing
        obtain ⟨hitems, hsame⟩ := hasForm_of_itemsOfScan hvalues
        refine ⟨.list hitems, fun hformed => ?_⟩
        rw [Json.WellFormed] at hformed
        rw [toJson, hsame hformed]
  | type, .object members, value, hread => by
      cases type <;>
        simp only [Scan.ofJson, ofContent, Except.bind_eq_ok, reduceCtorEq] at hread
      case map =>
        obtain ⟨fields, hfields, hclosing⟩ := hread
        obtain rfl := Except.ok.inj hclosing
        obtain ⟨hmembers, hsame⟩ := hasForm_of_fieldsOfScan hfields
        refine ⟨.map hmembers, fun hformed => ?_⟩
        rw [Json.WellFormed] at hformed
        have hsorted : Fields.Sorted fields := by
          apply sorted_of_fieldsToJson
          rw [hsame hformed.2]
          exact hformed.1
        rw [toJson, Fields.ofList_of_sorted hsorted, hsame hformed.2]

theorem hasForm_of_itemsOfScan : ∀ {items : List Json} {values : List WireValue},
    itemsOfScan (Scan.ofItems items) = .ok values →
      (∀ item ∈ items, item.HasForm) ∧ (Json.AllWellFormed items → itemsToJson values = items)
  | [], _, hread => by
      obtain rfl := Except.ok.inj hread
      exact ⟨by simp, fun _ => rfl⟩
  | item :: rest, _, hread => by
      simp only [Scan.ofItems, itemsOfScan, Except.bind_eq_ok, Except.pure_eq_ok] at hread
      obtain ⟨value, hvalue, values, hvalues, rfl⟩ := hread
      obtain ⟨hform, hsame⟩ := hasForm_of_ofScan hvalue
      obtain ⟨hforms, hsames⟩ := hasForm_of_itemsOfScan hvalues
      refine ⟨List.forall_mem_cons.mpr ⟨hform, hforms⟩, fun hformed => ?_⟩
      rw [Json.AllWellFormed] at hformed
      rw [itemsToJson, hsame hformed.1, hsames hformed.2]

theorem hasForm_of_fieldsOfScan : ∀ {members : List (String × Json)}
    {fields : List (String × WireValue)}, fieldsOfScan (Scan.ofMembers members) = .ok fields →
      (∀ member ∈ members, member.2.HasForm) ∧
        (Json.MembersWellFormed members → fieldsToJson fields = members)
  | [], _, hread => by
      obtain rfl := Except.ok.inj hread
      exact ⟨by simp, fun _ => rfl⟩
  | (key, content) :: rest, _, hread => by
      simp only [Scan.ofMembers, fieldsOfScan, Except.bind_eq_ok, Except.pure_eq_ok] at hread
      obtain ⟨value, hvalue, fields, hfields, rfl⟩ := hread
      obtain ⟨hform, hsame⟩ := hasForm_of_ofScan hvalue
      obtain ⟨hforms, hsames⟩ := hasForm_of_fieldsOfScan hfields
      refine ⟨List.forall_mem_cons.mpr ⟨hform, hforms⟩, fun hformed => ?_⟩
      rw [Json.MembersWellFormed] at hformed
      rw [fieldsToJson, hsame hformed.1, hsames hformed.2]

end

/-! ## Reading succeeds for every form -/

mutual

theorem exists_ofScan : ∀ {json : Json}, json.HasForm → ∃ value, ofScan (.ofJson json) = .ok value
  | .object [(_, content)], .tagged hcontent => by
      obtain ⟨value, hvalue⟩ := exists_ofContent hcontent
      exact ⟨value, (ofScan_tagged _ content).trans hvalue⟩

theorem exists_ofContent : ∀ {type : WireType} {json : Json}, Json.HasContent type json →
    ∃ value, ofContent type (.ofJson json) = .ok value
  | _, .string text, .string _ => ⟨.string text, rfl⟩
  | _, .string text, .number _ => ⟨.number text, rfl⟩
  | _, .string text, .binary hcanonical => by
      obtain ⟨bytes, hbytes⟩ := canonical_iff_bytesOf.mp hcanonical
      exact ⟨.binary bytes, by rw [ofContent_binary, hbytes]; rfl⟩
  | _, .array _, .stringSet texts => ⟨.stringSet texts, ofContent_stringSet texts⟩
  | _, .array _, .numberSet texts => ⟨.numberSet texts, ofContent_numberSet texts⟩
  | _, .array _, .binarySet hcanonical => by
      obtain ⟨members, hmembers⟩ := exists_mapM_bytesOf hcanonical
      exact ⟨.binarySet members, by rw [ofContent_binarySet, hmembers]; rfl⟩
  | _, .bool flag, .boolean _ => ⟨.boolean flag, rfl⟩
  | _, .bool flag, .null _ => ⟨.null flag, rfl⟩
  | _, .array items, .list hitems => by
      obtain ⟨values, hvalues⟩ := exists_itemsOfScan hitems
      exact ⟨.list values, by rw [ofContent_list, hvalues]; rfl⟩
  | _, .object members, .map hmembers => by
      obtain ⟨fields, hfields⟩ := exists_fieldsOfScan hmembers
      exact ⟨.map (Fields.ofList fields), by rw [ofContent_map, hfields]; rfl⟩

theorem exists_itemsOfScan : ∀ {items : List Json}, (∀ item ∈ items, item.HasForm) →
    ∃ values, itemsOfScan (Scan.ofItems items) = .ok values
  | [], _ => ⟨[], rfl⟩
  | item :: rest, hforms => by
      rw [List.forall_mem_cons] at hforms
      obtain ⟨value, hvalue⟩ := exists_ofScan hforms.1
      obtain ⟨values, hvalues⟩ := exists_itemsOfScan hforms.2
      refine ⟨value :: values, ?_⟩
      rw [Scan.ofItems, itemsOfScan, hvalue, hvalues]
      rfl

theorem exists_fieldsOfScan : ∀ {members : List (String × Json)},
    (∀ member ∈ members, member.2.HasForm) →
      ∃ fields, fieldsOfScan (Scan.ofMembers members) = .ok fields
  | [], _ => ⟨[], rfl⟩
  | (key, content) :: rest, hforms => by
      rw [List.forall_mem_cons] at hforms
      obtain ⟨value, hvalue⟩ := exists_ofScan hforms.1
      obtain ⟨fields, hfields⟩ := exists_fieldsOfScan hforms.2
      refine ⟨(key, value) :: fields, ?_⟩
      rw [Scan.ofMembers, fieldsOfScan, hvalue, hfields]
      rfl

end

/-! ## The codec -/

/-- Reading undoes writing, the forms are exactly what can be read, and a form is written again as
it was read.  The members of objects and the fields of maps have each key once and in order. -/
theorem json_codec_exact (value : WireValue) (json : Json) :
    (value.WellFormed → ofJson value.toJson = .ok value) ∧
      ((∃ found, ofJson json = .ok found) ↔ json.HasForm) ∧
      (json.WellFormed → ∀ found, ofJson json = .ok found → found.toJson = json) := by
  refine ⟨ofScan_toJson, ⟨?_, exists_ofScan⟩, ?_⟩
  · rintro ⟨found, hread⟩
    exact (hasForm_of_ofScan hread).1
  · intro hformed found hread
    exact (hasForm_of_ofScan hread).2 hformed

theorem json_codec_exact_nested :
    let value : WireValue :=
      .map [("parts", .list [.binary [104, 105], .null true]), ("sizes", .numberSet ["1", "2"])]
    let json : Json :=
      .object [("L", .array [.object [("B", .string "aGk=")], .object [("M", .object [])]])]
    value.WellFormed ∧ ofJson value.toJson = .ok value ∧ json.WellFormed ∧ json.HasForm ∧
      ∃ found, ofJson json = .ok found ∧ found.toJson = json := by
  intro value json
  have hvalue : value.WellFormed := ⟨by decide, ⟨trivial, trivial, trivial⟩, trivial, trivial⟩
  have hjson : json.WellFormed :=
    ⟨by decide, ⟨⟨by decide, trivial, trivial⟩, ⟨by decide, ⟨by decide, trivial⟩, trivial⟩, trivial⟩,
      trivial⟩
  have hread : ofJson json = .ok (.list [.binary [104, 105], .map []]) := by rfl
  obtain ⟨hback, hgrammar, hagain⟩ := json_codec_exact value json
  exact ⟨hvalue, hback hvalue, hjson, hgrammar.mp ⟨_, hread⟩, _, hread, hagain hjson _ hread⟩

/-- The second tag is only looked for after the content of the first one. -/
example : ofJson (.object [("S", .string "a"), ("SS", .null)]) = .error .notOneKey := rfl

end WireValue

end ItemMapper
