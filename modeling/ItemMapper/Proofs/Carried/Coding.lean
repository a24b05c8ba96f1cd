import ItemMapper.Proofs.Coding.Members
import ItemMapper.Proofs.Plain.Codec

/-!
# What values are stored as

A property of stored values often holds because the values that they are stored from have a property
of their own.  `Carries` says of such a pair what depends on the pair: what the scalars, dates and
sets with the one property are stored as, and that both properties go through lists and maps.  What
does not depend on it is shown here, once for all pairs: whatever form a value is encoded in, its
natural form, what is kept of it as undeclared data, or the form of a type, the property is carried
over.
-/

namespace ItemMapper

variable {σ : Type}

/-- Values with the first property are stored as values with the second.  Dates and strings are
always among the first, since times and combined texts take the place of given values. -/
structure Carries (given : Value → Prop) (stored : WireValue → Prop) : Prop where
  list_iff : ∀ {items : List Value}, given (.list items) ↔ ∀ item ∈ items, given item
  fields : ∀ {fields : List (String × Value)}, given (.map fields) → ∀ field ∈ fields, given field.2
  members : ∀ {members : List Value}, given (.set members) → ∀ member ∈ members, given member
  givenDate : ∀ instant, given (.date instant)
  givenString : ∀ text, given (.string text)
  list : ∀ {items : List WireValue}, (∀ item ∈ items, stored item) → stored (.list items)
  map : ∀ {fields : List (String × WireValue)}, (∀ field ∈ fields, stored field.2) →
    stored (.map fields)
  null : stored (.null true)
  boolean : ∀ value, stored (.boolean value)
  string : ∀ text, stored (.string text)
  binary : ∀ bytes, stored (.binary bytes)
  number : ∀ {x : Binary64}, given (.number x) → stored (.number x.text)
  date : ∀ instant storage, stored (.ofDate instant storage)
  set : ∀ {kind : SetElement} {members : List Value} {form : WireValue},
    (∀ member ∈ members, given member) → kind.Encodes members form → stored form

/-- The type of the members of a set says what each of them is stored as.  The stored set lists just
this. -/
theorem Reading.encodes_of_encodeSet {reading : Reading σ} {element : CandidateType σ}
    {members : List Value} {stored : WireValue}
    (hencode : reading.encodeSet element members = .ok (some stored)) :
    ∃ kind, element.setElement? = some kind ∧ kind.Encodes members stored := by
  unfold encodeSet at hencode
  cases hkind : element.setElement? with
  | none => cases members <;> simp [hkind] at hencode
  | some kind =>
      cases hfound : kind.encode members with
      | error member => simp [hkind, hfound, Except.mapError] at hencode
      | ok found =>
          simp only [hkind, hfound, Except.mapError, Except.ok.injEq] at hencode
          exact ⟨kind, rfl, SetElement.encodes_of_encode (hencode ▸ hfound)⟩

namespace Carries

variable {given : Value → Prop} {stored : WireValue → Prop}

/-! ## Natural forms -/

mutual

theorem natural? (hcarries : Carries given stored) : ∀ {value : Value} {form : WireValue},
    given value → value.natural? = some form → stored form
  | .undefined, _, _, hform => by contradiction
  | .null, _, _, hform => by
      obtain rfl := Option.some.inj hform
      exact hcarries.null
  | .bool _, _, _, hform => by
      obtain rfl := Option.some.inj hform
      exact hcarries.boolean _
  | .number _, _, hgiven, hform => by
      obtain rfl := Option.some.inj hform
      exact hcarries.number hgiven
  | .string _, _, _, hform => by
      obtain rfl := Option.some.inj hform
      exact hcarries.string _
  | .binary _, _, _, hform => by
      obtain rfl := Option.some.inj hform
      exact hcarries.binary _
  | .date _, _, _, hform => by
      obtain rfl := Option.some.inj hform
      exact hcarries.date _ _
  | .set members, _, hgiven, hform => by
      obtain ⟨_, hencodes⟩ := Value.encodes_of_natural? hform
      exact hcarries.set (hcarries.members hgiven) hencodes
  | .list items, _, hgiven, hform => by
      rw [Value.natural?] at hform
      obtain rfl := Option.some.inj hform
      exact hcarries.list (hcarries.naturalItems items (hcarries.list_iff.mp hgiven))
  | .map fields, _, hgiven, hform => by
      rw [Value.natural?] at hform
      obtain rfl := Option.some.inj hform
      exact hcarries.map (hcarries.naturalFields fields (hcarries.fields hgiven))

theorem naturalItems (hcarries : Carries given stored) : ∀ items : List Value,
    (∀ item ∈ items, given item) → ∀ form ∈ Value.naturalItems items, stored form
  | [], _ => by simp [Value.naturalItems]
  | item :: rest, hgiven => by
      obtain ⟨hitem, hrest⟩ := List.forall_mem_cons.mp hgiven
      rw [Value.naturalItems]
      split
      · next form hform =>
          exact List.forall_mem_cons.mpr
            ⟨hcarries.natural? hitem hform, hcarries.naturalItems rest hrest⟩
      · exact hcarries.naturalItems rest hrest

theorem naturalFields (hcarries : Carries given stored) : ∀ fields : List (String × Value),
    (∀ field ∈ fields, given field.2) → ∀ field ∈ Value.naturalFields fields, stored field.2
  | [], _ => by simp [Value.naturalFields]
  | (key, value) :: rest, hgiven => by
      obtain ⟨hvalue, hrest⟩ := List.forall_mem_cons.mp hgiven
      rw [Value.naturalFields]
      split
      · next form hform =>
          exact List.forall_mem_cons.mpr
            ⟨hcarries.natural? hvalue hform, hcarries.naturalFields rest hrest⟩
      · exact hcarries.naturalFields rest hrest

end

/-! ## Undeclared data -/

mutual

theorem keep? (hcarries : Carries given stored) {scope : Scope σ} :
    ∀ {value : Value} {place : Place} {form : WireValue}, given value →
      value.keep? scope place = some form → stored form
  | .map fields, place, _, hgiven, hform => by
      rw [Value.keep?] at hform
      obtain ⟨-, hkept⟩ := Option.ite_none_right_eq_some.mp hform
      obtain rfl := Option.some.inj hkept
      exact hcarries.map (hcarries.keepFields place fields (hcarries.fields hgiven))
  | .list items, place, _, hgiven, hform => by
      rw [Value.keep?] at hform
      obtain ⟨-, hkept⟩ := Option.ite_none_right_eq_some.mp hform
      obtain rfl := Option.some.inj hkept
      exact hcarries.list (hcarries.keepItems place 0 items (hcarries.list_iff.mp hgiven))
  | .undefined, _, _, hgiven, hform | .null, _, _, hgiven, hform | .bool _, _, _, hgiven, hform
  | .number _, _, _, hgiven, hform | .string _, _, _, hgiven, hform
  | .binary _, _, _, hgiven, hform | .date _, _, _, hgiven, hform | .set _, _, _, hgiven, hform => by
      simp only [Value.keep?] at hform
      exact hcarries.natural? hgiven (Option.ite_none_right_eq_some.mp hform).2

theorem keepItems (hcarries : Carries given stored) {scope : Scope σ} (place : Place) :
    ∀ (index : Nat) (items : List Value), (∀ item ∈ items, given item) →
      ∀ form ∈ Value.keepItems scope place index items, stored form
  | _, [], _ => by simp [Value.keepItems]
  | index, item :: rest, hgiven => by
      obtain ⟨hitem, hrest⟩ := List.forall_mem_cons.mp hgiven
      rw [Value.keepItems]
      split
      · next form hform =>
          exact List.forall_mem_cons.mpr
            ⟨hcarries.keep? hitem hform, hcarries.keepItems place (index + 1) rest hrest⟩
      · exact hcarries.keepItems place (index + 1) rest hrest

theorem keepFields (hcarries : Carries given stored) {scope : Scope σ} (place : Place) :
    ∀ fields : List (String × Value), (∀ field ∈ fields, given field.2) →
      ∀ field ∈ Value.keepFields scope place fields, stored field.2
  | [], _ => by simp [Value.keepFields]
  | (key, value) :: rest, hgiven => by
      obtain ⟨hvalue, hrest⟩ := List.forall_mem_cons.mp hgiven
      rw [Value.keepFields]
      split
      · next form hform =>
          exact List.forall_mem_cons.mpr
            ⟨hcarries.keep? hvalue hform, hcarries.keepFields place rest hrest⟩
      · exact hcarries.keepFields place rest hrest

end

/-! ## Values with a type -/

theorem encodeSet (hcarries : Carries given stored) {reading : Reading σ} {element : CandidateType σ}
    {members : List Value} {form : WireValue} (hgiven : ∀ member ∈ members, given member)
    (hencode : reading.encodeSet element members = .ok (some form)) : stored form := by
  obtain ⟨_, -, hencodes⟩ := Reading.encodes_of_encodeSet hencode
  exact hcarries.set hgiven hencodes

theorem encodeScalar (hcarries : Carries given stored) {reading : Reading σ} {value : Value}
    {form : WireValue} (hgiven : given value)
    (hencode : reading.encodeScalar value = .ok (some form)) : stored form := by
  unfold Reading.encodeScalar at hencode
  split at hencode
  · exact hcarries.natural? hgiven (Except.ok.inj hencode)
  · exact hcarries.natural? hgiven (Except.ok.inj hencode)
  · exact hcarries.natural? hgiven (Except.ok.inj hencode)
  · split at hencode
    · obtain rfl := Option.some.inj (Except.ok.inj hencode)
      exact hcarries.date _ _
    · contradiction
  · exact hcarries.encodeSet (hcarries.members hgiven) hencode
  · exact hcarries.encodeSet (hcarries.list_iff.mp hgiven) hencode
  · contradiction

/-- A value that is given a type is encoded as this type. -/
theorem encode_of {scope : Scope σ} {place : Place} {types : List (CandidateType σ)} {value : Value}
    (hvalue : ∀ {reading : Reading σ} {form}, value.encodeAs reading = .ok (some form) → stored form)
    {form : WireValue} (hencode : scope.encode place types value = .ok (some form)) :
    stored form := by
  rw [Scope.encode] at hencode
  split at hencode
  · cases Except.ok.inj hencode
  · obtain ⟨choice, -, hchosen⟩ := Except.bind_eq_ok.mp hencode
    exact hvalue hchosen

mutual

theorem encodeAs (hcarries : Carries given stored) : ∀ (value : Value) {reading : Reading σ}
    {form : WireValue}, given value → value.encodeAs reading = .ok (some form) → stored form
  | .list items, reading, form, hgiven, hencode => by
      rw [Value.encodeAs] at hencode
      split at hencode
      · simp only [Except.bind_eq_ok, Except.pure_eq_ok, Option.some.injEq] at hencode
        obtain ⟨forms, hitems, rfl⟩ := hencode
        exact hcarries.list (hcarries.encodeItems items (hcarries.list_iff.mp hgiven) hitems)
      · exact hcarries.encodeScalar hgiven hencode
  | .map fields, reading, form, hgiven, hencode => by
      rw [Value.encodeAs] at hencode
      split at hencode
      · simp only [Except.bind_eq_ok, Except.pure_eq_ok, Option.some.injEq] at hencode
        obtain ⟨pairs, hfields, rfl⟩ := hencode
        refine hcarries.map fun field hfield => ?_
        exact hcarries.encodeFields fields (hcarries.fields hgiven) hfields field
          (Fields.mem_of_mem_ofList hfield)
      · exact hcarries.encodeScalar hgiven hencode
  | .undefined, _, _, hgiven, hencode | .null, _, _, hgiven, hencode
  | .bool _, _, _, hgiven, hencode | .number _, _, _, hgiven, hencode
  | .string _, _, _, hgiven, hencode | .binary _, _, _, hgiven, hencode
  | .date _, _, _, hgiven, hencode | .set _, _, _, hgiven, hencode => by
      simp only [Value.encodeAs] at hencode
      exact hcarries.encodeScalar hgiven hencode

theorem encodeItems (hcarries : Carries given stored) {scope : Scope σ} {place : Place}
    {elements : List (CandidateType σ)} : ∀ (items : List Value) {index : Nat}
    {forms : List WireValue}, (∀ item ∈ items, given item) →
      Value.encodeItems scope place elements index items = .ok forms → ∀ form ∈ forms, stored form
  | [], _, _, _, hencode => by
      obtain rfl := Except.ok.inj hencode
      simp
  | item :: rest, index, _, hgiven, hencode => by
      obtain ⟨hitem, hrest⟩ := List.forall_mem_cons.mp hgiven
      simp only [Value.encodeItems_cons, Except.bind_eq_ok, Except.pure_eq_ok] at hencode
      obtain ⟨form, hform, others, hothers, rfl⟩ := hencode
      rw [List.forall_mem_append]
      refine ⟨fun kept hkept => ?_, hcarries.encodeItems rest hrest hothers⟩
      obtain rfl := Option.mem_toList.mp hkept
      exact encode_of (hcarries.encodeAs item hitem) hform

theorem encodeFields (hcarries : Carries given stored) {frame : Frame σ} :
    ∀ (fields : List (String × Value)) {pairs : List (String × WireValue)},
      (∀ field ∈ fields, given field.2) → Value.encodeFields frame fields = .ok pairs →
        ∀ pair ∈ pairs, stored pair.2
  | [], _, _, hencode => by
      obtain rfl := Except.ok.inj hencode
      simp
  | (key, value) :: rest, _, hgiven, hencode => by
      obtain ⟨hvalue, hrest⟩ := List.forall_mem_cons.mp hgiven
      simp only [Value.encodeFields_cons, Except.bind_eq_ok, Except.pure_eq_ok] at hencode
      obtain ⟨entry, hentry, others, hothers, rfl⟩ := hencode
      rw [List.forall_mem_append]
      refine ⟨fun pair hpair => ?_, hcarries.encodeFields rest hrest hothers⟩
      obtain rfl := Option.mem_toList.mp hpair
      rw [Frame.encodeField] at hentry
      split at hentry
      · simp only [Except.bind_eq_ok, Except.pure_eq_ok] at hentry
        obtain ⟨form, hform, hsome⟩ := hentry
        obtain ⟨_, rfl, rfl⟩ := Option.map_eq_some_iff.mp hsome
        exact encode_of (hcarries.encodeAs value hvalue) hform
      · obtain ⟨_, hkept, rfl⟩ := Option.map_eq_some_iff.mp (Except.ok.inj hentry)
        exact hcarries.keep? hvalue hkept

end

/-- A value with the property is encoded as a value with the other one. -/
theorem encode (hcarries : Carries given stored) {scope : Scope σ} {place : Place}
    {types : List (CandidateType σ)} {value : Value} {form : WireValue} (hgiven : given value)
    (hencode : scope.encode place types value = .ok (some form)) : stored form :=
  encode_of (hcarries.encodeAs value hgiven) hencode

end Carries

end ItemMapper
