import ItemMapper.Proofs.Reference.Documents
import ItemMapper.Proofs.Spelling.Documents

/-!
# The key of a saved item

The key of a document is encoded from what the document gives, by the codec alone, while saving
passes every attribute through all stages.  The key that is found is the key that is saved exactly if
the codec makes the saved value of what is given for each attribute of the key
(`Mapper.key_found_iff`).  So it is for an attribute that the stages leave as it is given and whose
value holds no document: then writing is encoding (`Value.encode_of_yields_writer`).  A modifier, a
default or a combination has no part in the key of a document (`Mapper.key_differs_from_saved`).
-/

namespace ItemMapper

variable {σ : Type}

open Pipeline

/-! ## Values without documents -/

namespace Value

mutual

/-- A document is in the value. -/
def hasDocument : Value → Bool
  | .map _ => true
  | .list items => anyDocument items
  | _ => false

def anyDocument : List Value → Bool
  | [] => false
  | item :: rest => hasDocument item || anyDocument rest

end

variable {make : Value → Draft σ} {writing : Writing}

mutual

/-- Where no document passes through stages of its own, writing is encoding. -/
theorem encode_of_yields_writer (hcheck : writing.options.typeCheck = true) :
    ∀ (value : Value) {scope : Scope σ} {place : Place} {types : List (CandidateType σ)}
      {before after : σ} {stored : Option WireValue}, value.hasDocument = false →
      Yields (value.writer make writing scope place types) before stored after →
        scope.encode place types value = .ok stored
  | .undefined, _, _, _, _, _, _, _, hrun => by
      simp only [writer] at hrun
      obtain rfl := (yields_pure.mp hrun).1
      rfl
  | .list items, scope, place, types, _, _, _, hdocument, hrun => by
      simp only [writer] at hrun
      obtain ⟨choice, hchoice, hinside⟩ := (yields_writeChosen_iff hcheck).mp hrun
      refine (Scope.encode_eq_ok rfl).mpr ⟨choice, hchoice, ?_⟩
      split at hinside
      · next nested hnested =>
          split at hnested
          · next elements harray =>
              obtain rfl := Option.some.inj hnested
              obtain ⟨inner, rfl, hinner⟩ := hinside
              obtain ⟨storeds, _, hstoreds, hlist⟩ := yields_bind.mp hinner
              obtain rfl := (yields_pure.mp hlist).1
              rw [Scope.reading_of_array hchoice harray]
              simp only [encodeAs]
              rw [encodeItems_of_yields_writeItems hcheck items hdocument hstoreds]
              rfl
          · contradiction
      · exact hinside.1
  | .null, scope, place, types, _, _, _, _, hrun
  | .bool _, scope, place, types, _, _, _, _, hrun
  | .number _, scope, place, types, _, _, _, _, hrun
  | .string _, scope, place, types, _, _, _, _, hrun
  | .binary _, scope, place, types, _, _, _, _, hrun
  | .date _, scope, place, types, _, _, _, _, hrun
  | .set _, scope, place, types, _, _, _, _, hrun => by
      simp only [writer] at hrun
      obtain ⟨choice, hchoice, hencode, -⟩ := (yields_writeChosen_iff hcheck).mp hrun
      exact (Scope.encode_eq_ok rfl).mpr ⟨choice, hchoice, hencode⟩

theorem encodeItems_of_yields_writeItems (hcheck : writing.options.typeCheck = true) :
    ∀ (items : List Value) {scope : Scope σ} {place : Place} {elements : List (CandidateType σ)}
      {index : Nat} {before after : σ} {storeds : List WireValue}, anyDocument items = false →
      Yields (writeItems make writing scope place elements index items) before storeds after →
        encodeItems scope place elements index items = .ok storeds
  | [], _, _, _, _, _, _, _, _, hrun => by
      rw [writeItems] at hrun
      obtain rfl := (yields_pure.mp hrun).1
      rfl
  | item :: rest, _, _, _, _, _, _, _, hdocument, hrun => by
      obtain ⟨hitem, hrest⟩ := Bool.or_eq_false_iff.mp hdocument
      simp only [writeItems, yields_bind, yields_pure] at hrun
      obtain ⟨stored, _, hstored, others, _, hothers, rfl, -⟩ := hrun
      rw [encodeItems_cons, encode_of_yields_writer hcheck item hitem hstored,
        encodeItems_of_yields_writeItems hcheck rest hrest hothers]
      rfl

end

end Value

/-! ## Keys -/

namespace Mapper

variable {mapper : Mapper σ} {document : Document} {item : Item} {field : Attribute σ}

/-- The attributes that make the key of an item. -/
def keyFields (mapper : Mapper σ) : List (Attribute σ) :=
  mapper.model.schema.hashKey?.toList ++ mapper.model.schema.rangeKey?.toList

/-- The key attributes of an item. -/
def keyPart (mapper : Mapper σ) (item : Item) : Item :=
  item.filter fun entry => mapper.model.schema.isKey entry.1

/-- The codec makes what is stored in the item of what the document gives for the attribute, under
its native name or else under its stored name. -/
def FindsSaved (mapper : Mapper σ) (document : Document) (item : Item) (field : Attribute σ) : Prop :=
  ∃ value, (document.get? field.nativeName).or (document.get? field.name) = some value ∧
    mapper.scope.encode (Place.root.child field.name) field.types value =
      .ok (item.get? field.name)

/-- The document gives one value for the attribute, which has its native name for itself, and there
is no document in the value.  Saving leaves it as it is: it is not replaced by a default or by the
time of writing, modified, or combined. -/
structure KeepsGiven (mapper : Mapper σ) (document : Document) (field : Attribute σ) : Prop where
  named : mapper.model.schema.nativeAttribute? field.nativeName = some field
  given : ∃ value, (document.get? field.nativeName).or (document.get? field.name) = some value ∧
    value.hasDocument = false
  unambiguous : field.Unambiguous document
  kept : field.Kept
  unstamped : mapper.model.schema.Unstamped .save field.name
  uncombined : field.combine? = none

theorem isKey_iff {name : String} :
    mapper.model.schema.isKey name = true ↔ ∃ field ∈ mapper.keyFields, field.name = name := by
  simp [SchemaOf.isKey, keyFields, Option.any_eq_true, or_and_right, exists_or]

theorem get?_keyPart_eq_some {name : String} {stored : WireValue} :
    (mapper.keyPart item).get? name = some stored ↔
      (∃ field ∈ mapper.keyFields, field.name = name) ∧ item.get? name = some stored := by
  rw [← isKey_iff]
  constructor
  · intro hstored
    have hkey : mapper.model.schema.isKey name = true :=
      (List.mem_filter.mp (Fields.mem_of_get? hstored)).2
    rw [keyPart, Fields.get?_filter _ fun entry _ hentry => by rwa [hentry]] at hstored
    exact ⟨hkey, hstored⟩
  · rintro ⟨hkey, hstored⟩
    rwa [keyPart, Fields.get?_filter _ fun entry _ hentry => by rwa [hentry]]

theorem keyField_eq_ok {entry : String × WireValue} :
    mapper.keyField document field = .ok entry ↔
      ∃ value, (document.get? field.nativeName).or (document.get? field.name) = some value ∧
        mapper.scope.encode (Place.root.child field.name) field.types value = .ok (some entry.2) ∧
          field.name = entry.1 := by
  unfold keyField
  cases hgiven : (document.get? field.nativeName).or (document.get? field.name) with
  | none => simp
  | some value =>
      simp only [Except.bind_eq_ok, Option.some.injEq, exists_eq_left']
      constructor
      · rintro ⟨stored, hstored, hentry⟩
        cases stored with
        | none => simp at hentry
        | some stored =>
            obtain rfl := Except.pure_eq_ok.mp hentry
            exact ⟨hstored, rfl⟩
      · rintro ⟨hstored, hname⟩
        exact ⟨_, hstored, Except.pure_eq_ok.mpr (Prod.ext hname rfl)⟩

theorem findsSaved_iff {stored : WireValue} (hstored : item.get? field.name = some stored) :
    mapper.FindsSaved document item field ↔
      mapper.keyField document field = .ok (field.name, stored) := by
  simp only [FindsSaved, hstored, keyField_eq_ok, and_true]

theorem key_eq_ok {found : Item} : mapper.key document = .ok found ↔
    ∃ entries, List.Forall₂ (fun field entry => mapper.keyField document field = .ok entry)
      mapper.keyFields entries ∧ Fields.ofList entries = found := by
  simp only [key, Except.bind_eq_ok, Except.pure_eq_ok, Except.mapM_eq_ok, keyFields]

section Found

variable (hschema : mapper.model.schema.WellFormed)

include hschema

/-- The names of attributes are distinct, so what is found under a name is the value of its
attribute. -/
theorem get?_key_eq_some {found : Item} (hkey : mapper.key document = .ok found) {name : String}
    {stored : WireValue} : found.get? name = some stored ↔
      ∃ field ∈ mapper.keyFields, mapper.keyField document field = .ok (name, stored) := by
  obtain ⟨entries, hentries, rfl⟩ := key_eq_ok.mp hkey
  constructor
  · intro hstored
    exact exists_related_right hentries (Fields.mem_of_get?_ofList hstored)
  · rintro ⟨field, hfield, hfound⟩
    obtain ⟨entry, hentry, hsame⟩ := exists_related_left hentries hfield
    obtain rfl := Except.ok.inj (hsame.symm.trans hfound)
    refine Fields.get?_ofList_of_mem hentry fun other hother => ?_
    obtain ⟨declared, hdeclared, hvalue⟩ := exists_related_right hentries hother
    obtain ⟨_, -, -, hname⟩ := keyField_eq_ok.mp hfound
    obtain ⟨_, -, -, hdeclaredName⟩ := keyField_eq_ok.mp hvalue
    obtain rfl := hschema.eq_of_name_eq (Scope.mem_of_key hdeclared) (Scope.mem_of_key hfield)
      (hdeclaredName.trans hname.symm)
    exact (Prod.mk.inj (Except.ok.inj (hvalue.symm.trans hfound))).2

/-- The key of a document is the key of an item if each of its attributes is found. -/
theorem key_eq_keyPart_iff (hsorted : Fields.Sorted item)
    (hkeys : ∀ field ∈ mapper.keyFields, (item.get? field.name).isSome = true) :
    mapper.key document = .ok (mapper.keyPart item) ↔
      ∀ field ∈ mapper.keyFields, mapper.FindsSaved document item field := by
  have hsaved : ∀ field ∈ mapper.keyFields, ∃ stored, item.get? field.name = some stored ∧
      (mapper.FindsSaved document item field ↔
        mapper.keyField document field = .ok (field.name, stored)) := by
    intro field hfield
    obtain ⟨stored, hstored⟩ := Option.isSome_iff_exists.mp (hkeys field hfield)
    exact ⟨stored, hstored, findsSaved_iff hstored⟩
  constructor
  · intro hkey field hfield
    obtain ⟨stored, hstored, hfinds⟩ := hsaved field hfield
    obtain ⟨declared, hdeclared, hfound⟩ := (get?_key_eq_some hschema hkey).mp
      (get?_keyPart_eq_some.mpr ⟨⟨field, hfield, rfl⟩, hstored⟩)
    obtain ⟨_, -, -, hname⟩ := keyField_eq_ok.mp hfound
    obtain rfl := hschema.eq_of_name_eq (Scope.mem_of_key hdeclared) (Scope.mem_of_key hfield) hname
    exact hfinds.mpr hfound
  · intro hall
    have hfound : ∀ field ∈ mapper.keyFields, ∃ stored, item.get? field.name = some stored ∧
        mapper.keyField document field = .ok (field.name, stored) := by
      intro field hfield
      obtain ⟨stored, hstored, hfinds⟩ := hsaved field hfield
      exact ⟨stored, hstored, hfinds.mp (hall field hfield)⟩
    have hfields : ∀ field ∈ mapper.keyFields, ∃ entry,
        mapper.keyField document field = .ok entry :=
      fun field hfield => (hfound field hfield).elim fun _ hstored => ⟨_, hstored.2⟩
    obtain ⟨entries, hentries⟩ := exists_forall₂ hfields
    have hkey := key_eq_ok.mpr ⟨entries, hentries, rfl⟩
    rw [hkey]
    refine congrArg _ (Fields.ext (Fields.sorted_ofList _) (hsorted.filter _) fun name =>
      Option.ext fun stored => ?_)
    rw [get?_key_eq_some hschema hkey, get?_keyPart_eq_some]
    constructor
    · rintro ⟨field, hfield, hvalue⟩
      obtain ⟨other, hother, hsame⟩ := hfound field hfield
      obtain ⟨rfl, rfl⟩ := Prod.mk.inj (Except.ok.inj (hsame.symm.trans hvalue))
      exact ⟨⟨field, hfield, rfl⟩, hother⟩
    · rintro ⟨⟨field, hfield, rfl⟩, hstored⟩
      obtain ⟨other, hother, hsame⟩ := hfound field hfield
      obtain rfl := Option.some.inj (hother.symm.trans hstored)
      exact ⟨field, hfield, hsame⟩

end Found

/-- Saving stores what the codec makes of a value that it leaves as it is given. -/
theorem KeepsGiven.findsSaved (hkept : mapper.KeepsGiven document field) {writing : Writing}
    {before after : σ} (hschema : mapper.model.schema.WellFormed)
    (hsorted : Fields.Sorted document) (hsave : writing.options = .save)
    (hrun : Yields (mapper.write writing document) before item after) :
    mapper.FindsSaved document item field := by
  obtain ⟨value, hvalue, hdocument⟩ := hkept.given
  refine ⟨value, hvalue, ?_⟩
  have hnormalized : (mapper.model.schema.normalized document).get? field.name = some value := by
    rw [← hvalue]
    exact (SchemaOf.get?_of_unambiguous hschema hkept.named (Fields.nodup_of_sorted hsorted)
      hkept.unambiguous).symm
  have hunstamped : mapper.model.schema.Unstamped writing.options field.name := by
    rw [hsave]
    exact hkept.unstamped
  rcases Frame.exists_yields_of_given hschema (SchemaOf.mem_of_nativeAttribute? hkept.named)
    hkept.kept hkept.uncombined hunstamped hnormalized hrun with
    ⟨hundefined, hnone⟩ | ⟨first, last, hstored⟩
  · rw [hnone, Scope.encode, if_pos hundefined]
  · exact Value.encode_of_yields_writer (by rw [hsave]; rfl) value hdocument hstored

/-- Let a document be saved as an item with all attributes of the key.  Then the key of the document
is the key of the item if and only if each of these attributes is found, and it is found if saving
leaves it as it is given. -/
theorem key_found_iff {writing : Writing} {before after : σ}
    (hschema : mapper.model.schema.WellFormed) (hsorted : Fields.Sorted document)
    (hsave : writing.options = .save)
    (hrun : Yields (mapper.write writing document) before item after)
    (hkeys : ∀ field ∈ mapper.keyFields, (item.get? field.name).isSome = true) :
    (mapper.key document = .ok (mapper.keyPart item) ↔
      ∀ field ∈ mapper.keyFields, mapper.FindsSaved document item field) ∧
    ∀ field ∈ mapper.keyFields, mapper.KeepsGiven document field →
      mapper.FindsSaved document item field := by
  have hitem : Fields.Sorted item := by
    obtain ⟨_, _, _, _, -, -, -, rfl⟩ := Drafts.of_yields_write hrun
    exact Fields.sorted_ofList _
  exact ⟨key_eq_keyPart_iff hschema hitem hkeys,
    fun _ _ hkept => hkept.findsSaved hschema hsorted hsave hrun⟩

end Mapper

/-! ## Tickets -/

/-- A modifier that marks texts. -/
def Modifier.mark : Modifier Unit where
  timing := .immediate
  apply value := pure (.string ("#" ++ value.string?.getD ""))

/-- The time of the show that a ticket is for. -/
def AttributeOf.ticketTime : Attribute Unit :=
  { AttributeOf.plain "time" [.date .seconds] with nativeAlias := some "on", key := some .hash }

/-- The seat, the first one if none is given. -/
def AttributeOf.ticketSeat : Attribute Unit :=
  { AttributeOf.plain "seat" [.primitive .number] with
    defaultValue := some (.literal (.number (.ofInt 1))), key := some .range }

/-- Tickets, the holders of which are marked. -/
def SchemaOf.ticket : Schema Unit where
  attributes := [{ AttributeOf.plain "holder" [.primitive .string] with writeModifiers := [.mark] },
    .ticketTime, .ticketSeat]
  keepUnknown := .disabled
  timestamps := none

/-- The mapper of the only model, which has the schema `SchemaOf.ticket`. -/
def Mapper.tickets : Mapper Unit :=
  ⟨⟨[⟨"Ticket", .ticket, none⟩]⟩, ⟨"Ticket", .ticket, none⟩⟩

def Document.ticket : Document :=
  [("holder", .string "Ada"), ("on", .date .epoch), ("seat", .number (.ofInt 7))]

def Item.ticket : Item :=
  [("holder", .string "#Ada"), ("seat", .number "7"), ("time", .number "0")]

theorem SchemaOf.wellFormed_ticket : ticket.WellFormed :=
  wellFormed_of_build (show build ticket.attributes .disabled none = .ok ticket from rfl)

namespace Mapper

theorem keyFields_tickets : tickets.keyFields = [.ticketTime, .ticketSeat] :=
  rfl

theorem keepsGiven_tickets :
    ∀ field ∈ tickets.keyFields, tickets.KeepsGiven Document.ticket field := by
  have hunstamped : ∀ name, SchemaOf.ticket.Unstamped .save name :=
    fun _ => .inr fun _ hstamps => nomatch hstamps
  rw [keyFields_tickets, List.forall_mem_cons, List.forall_mem_singleton]
  constructor
  · refine ⟨rfl, ⟨.date .epoch, rfl, rfl⟩, ?_, ⟨.inl rfl, rfl⟩, hunstamped _, rfl⟩
    intro value other _ hother
    cases hother
  · refine ⟨rfl, ⟨.number (.ofInt 7), rfl, rfl⟩, ?_, ⟨.inr rfl, rfl⟩, hunstamped _, rfl⟩
    intro value other hvalue hother
    exact Option.some.inj (hvalue.symm.trans hother)

theorem key_found_iff_ticket :
    SchemaOf.ticket.WellFormed ∧ Fields.Sorted Document.ticket ∧
    Yields (tickets.write ⟨.save, .epoch, 0⟩ Document.ticket) () Item.ticket () ∧
    (∀ field ∈ tickets.keyFields, (Item.ticket.get? field.name).isSome = true) ∧
    (∀ field ∈ tickets.keyFields, tickets.KeepsGiven Document.ticket field) ∧
    tickets.key Document.ticket = .ok [("seat", .number "7"), ("time", .number "0")] := by
  have hsorted : Fields.Sorted Document.ticket := by decide
  have hrun : Yields (tickets.write ⟨.save, .epoch, 0⟩ Document.ticket) () Item.ticket () :=
    yields_of_value? (by decide +kernel)
  have hkeys : ∀ field ∈ tickets.keyFields, (Item.ticket.get? field.name).isSome = true := by
    rw [keyFields_tickets, List.forall_mem_cons, List.forall_mem_singleton]
    exact ⟨rfl, rfl⟩
  obtain ⟨hfound, hfinds⟩ := key_found_iff SchemaOf.wellFormed_ticket hsorted rfl hrun hkeys
  refine ⟨SchemaOf.wellFormed_ticket, hsorted, hrun, hkeys, keepsGiven_tickets, ?_⟩
  exact hfound.mpr fun field hfield => hfinds field hfield (keepsGiven_tickets field hfield)

end Mapper

/-! ## Lockers -/

/-- The number of a locker, and a tag in it. -/
def SchemaOf.lockerNumber : Schema Unit where
  attributes := [.plain "number" [.primitive .number],
    { AttributeOf.plain "tag" [.primitive .string] with
      defaultValue := some (.literal (.string "new")) }]
  keepUnknown := .disabled
  timestamps := none

/-- The schema of lockers in a hall, with the given hash key. -/
def SchemaOf.locker (key : Attribute Unit) : Schema Unit where
  attributes := [key, .plain "hall" [.primitive .string]]
  keepUnknown := .disabled
  timestamps := none

def Mapper.lockers (key : Attribute Unit) : Mapper Unit :=
  ⟨⟨[⟨"Locker", .locker key, none⟩]⟩, ⟨"Locker", .locker key, none⟩⟩

namespace Mapper

/-- The document is saved as an item with all attributes of the key, and its own key is not theirs. -/
def SavesOtherKey (mapper : Mapper Unit) (document : Document) (item : Item) : Prop :=
  Yields (mapper.write ⟨.save, .epoch, 0⟩ document) () item () ∧
    (∀ field ∈ mapper.keyFields, (item.get? field.name).isSome = true) ∧
    mapper.key document ≠ .ok (mapper.keyPart item)

/-- A hash key that is modified, one with a default, a combined one, and one that is a document with
a default in it are saved as what the key of the document is not. -/
theorem key_differs_from_saved :
    (lockers { AttributeOf.plain "id" [.primitive .string] with
      writeModifiers := [.mark] }).SavesOtherKey [("id", .string "1")] [("id", .string "#1")] ∧
    (lockers { AttributeOf.plain "id" [.primitive .string] with
      defaultValue := some (.literal (.string "1")) }).SavesOtherKey [] [("id", .string "1")] ∧
    (lockers (.plain "id" [.combine ["hall"] "-"])).SavesOtherKey [("hall", .string "A")]
      [("hall", .string "A"), ("id", .string "A")] ∧
    (lockers (.plain "id" [.object .lockerNumber])).SavesOtherKey
      [("id", .map [("number", .number (.ofInt 1))])]
      [("id", .map [("number", .number "1"), ("tag", .string "new")])] := by
  have hother : ∀ {mapper : Mapper Unit} {document : Document} {item : Item},
      (mapper.write ⟨.save, .epoch, 0⟩ document).value? = some item →
      (mapper.keyFields.all fun field => (item.get? field.name).isSome) = true →
      (mapper.key document).toOption ≠ some (mapper.keyPart item) →
        mapper.SavesOtherKey document item :=
    fun hwritten hkeys hkey => ⟨yields_of_value? hwritten, List.all_eq_true.mp hkeys,
      fun hsame => hkey (Except.toOption_eq_some.mpr hsame)⟩
  refine ⟨hother ?_ rfl ?_, hother ?_ rfl ?_, hother ?_ rfl ?_, hother ?_ rfl ?_⟩ <;> decide +kernel

end Mapper

end ItemMapper
