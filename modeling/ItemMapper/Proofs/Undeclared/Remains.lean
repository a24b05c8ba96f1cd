import ItemMapper.Proofs.Coding.Members
import ItemMapper.Proofs.Coding.Natural

/-!
# What remains of undeclared values

An undeclared value is stored in its natural form and read by itself again.  `Value.remains` says
what should be left of it then: undefined entries and empty sets are left out, dates are numbers of
milliseconds, and of equal members of a set the first one stays.

A set is stored with the kind of its first member, and not at all if another member is of another
kind.  So this is what is left exactly of the values in which every set is of one kind
(`Value.returns_iff_alike`): strings, numbers, binary data, or dates, which may have whole numbers
of milliseconds among them if a date comes first.

Values are compared by `Value.equal` here, for which the two zeros are the same.
-/

namespace ItemMapper

/-! ## The law -/

mutual

/-- What should remain of a value without a schema. -/
def Value.remains : Value → Option Value
  | .undefined => none
  | .date instant => some (.number (.ofInt instant.millis))
  | .list items => some (.list (Value.remainingItems items))
  | .set members =>
    if members.isEmpty then none else some (.set (Value.remainingItems members).eraseDups)
  | .map fields => some (.map (Value.remainingFields fields))
  | value => some value

def Value.remainingItems : List Value → List Value
  | [] => []
  | item :: rest => item.remains.toList ++ Value.remainingItems rest

def Value.remainingFields : List (String × Value) → List (String × Value)
  | [] => []
  | (key, value) :: rest =>
    (value.remains.map fun kept => (key, kept)).toList ++ Value.remainingFields rest

end

/-- A value stands for a member of a set of this kind. -/
def SetElement.Collects : SetElement → Value → Prop
  | .string, value => ∃ text, value = .string text
  | .number, value => ∃ number, value = .number number
  | .binary, value => ∃ bytes, value = .binary bytes
  | .date _, value => (∃ instant, value = .date instant) ∨
      ∃ number millis, value = .number number ∧ number.equal (.ofInt millis) = true ∧
        (Instant.ofMillis? millis).isSome = true

mutual

/-- All members of a set are of the kind of the first one, in every set at any depth. -/
def Value.SetsAlike : Value → Prop
  | .list items => Value.ItemsAlike items
  | .set members =>
    ∀ first ∈ members.head?, ∀ member ∈ members, (SetElement.ofFirst first).Collects member
  | .map fields => Value.FieldsAlike fields
  | _ => True

def Value.ItemsAlike : List Value → Prop
  | [] => True
  | item :: rest => item.SetsAlike ∧ Value.ItemsAlike rest

def Value.FieldsAlike : List (String × Value) → Prop
  | [] => True
  | (_, value) :: rest => value.SetsAlike ∧ Value.FieldsAlike rest

end

mutual

/-- There is no not-a-number in a value. -/
def Value.Numeric : Value → Prop
  | .number x => x ≠ .nan
  | .list items | .set items => Value.ItemsNumeric items
  | .map fields => Value.FieldsNumeric fields
  | _ => True

def Value.ItemsNumeric : List Value → Prop
  | [] => True
  | item :: rest => item.Numeric ∧ Value.ItemsNumeric rest

def Value.FieldsNumeric : List (String × Value) → Prop
  | [] => True
  | (_, value) :: rest => value.Numeric ∧ Value.FieldsNumeric rest

end

/-! ## Numbers -/

namespace Binary64

theorem equal_symm {x y : Binary64} (hequal : x.equal y = true) : y.equal x = true := by
  rcases eq_or_zero_of_equal hequal with rfl | ⟨negative, negative', rfl, rfl⟩
  · exact hequal
  · exact equal_zero negative' negative

variable {n : Int}

theorem represents_ofInt (hshort : n.natAbs < 2 ^ 53) : (ofInt n).Represents n := by
  obtain ⟨mantissa, scale, h, hvalue⟩ := exists_canonical_natural hshort
  refine ⟨mantissa, scale, h, ?_, hvalue.symm⟩
  rw [ofInt]
  exact ofRatio_of_eq _ h Nat.one_pos (by rw [hvalue, Nat.mul_one])

theorem Represents.eq {x y : Binary64} (hx : x.Represents n) (hy : y.Represents n) : x = y := by
  obtain ⟨mantissa, scale, h, rfl, hvalue⟩ := hx
  obtain ⟨mantissa', scale', h', rfl, hvalue'⟩ := hy
  obtain ⟨rfl, rfl⟩ := canonical_unique h h' (hvalue.trans hvalue'.symm)
  rfl

/-- A short integer is read from its text. -/
theorem parse?_toString_short (hshort : n.natAbs < 2 ^ 53) :
    Decimal.parse? (toString n) = some (ofInt n) := by
  obtain ⟨x, hparse, hx⟩ := exists_parse?_toString hshort
  rw [hparse, hx.eq (represents_ofInt hshort)]

theorem roundToInt64_ofInt (hshort : n.natAbs < 2 ^ 53) : (ofInt n).roundToInt64 = n :=
  (represents_ofInt hshort).roundToInt64 hshort

theorem equal_ofInt (hshort : n.natAbs < 2 ^ 53) : (ofInt n).equal (ofInt n) = true := by
  obtain ⟨mantissa, scale, h, heq, -⟩ := represents_ofInt hshort
  rw [heq]
  exact equal_self h

theorem isFinite_ofInt (hshort : n.natAbs < 2 ^ 53) : (ofInt n).isFinite = true := by
  obtain ⟨mantissa, scale, h, heq, -⟩ := represents_ofInt hshort
  rw [heq]
  rfl

end Binary64

theorem Instant.millis_of_ofMillis? {millis : Int} {t : Instant} (ht : ofMillis? millis = some t) :
    t.millis = millis := by
  obtain ⟨hseconds, hnanos⟩ := of_ofMillis? ht
  rw [Instant.millis, hseconds, hnanos]
  omega

/-! ## Lists without repetition -/

/-- What is the same among the items is the same among what they are related to, so the same are
left out on both sides. -/
theorem forall₂_eraseDups {α β : Type} [BEq α] [BEq β] {related : α → β → Prop}
    (hsame : ∀ {a b a' b'}, related a b → related a' b' → (a == a') = (b == b')) {as : List α}
    {bs : List β} (hall : List.Forall₂ related as bs) :
    List.Forall₂ related as.eraseDups bs.eraseDups := by
  induction hlength : as.length using Nat.strong_induction_on generalizing as bs with
  | _ length ih =>
      cases hall with
      | nil => exact .nil
      | @cons a b as bs hfirst hrest =>
          have hfiltered : List.Forall₂ related (as.filter fun other => !other == a)
              (bs.filter fun other => !other == b) :=
            List.rel_filter (fun _ _ hrelated => by simp [hsame hrelated hfirst]) hrest
          have hshorter : (as.filter fun other => !other == a).length < length := by
            rw [← hlength]
            exact Nat.lt_succ_of_le (List.length_filter_le _ _)
          rw [List.eraseDups_cons, List.eraseDups_cons]
          exact .cons hfirst (ih _ hshorter hfiltered rfl)

/-- What is left out is the same as something that stays. -/
theorem exists_mem_eraseDups {α : Type} [BEq α] {item : α} {items : List α}
    (hitem : item ∈ items) :
    ∃ kept ∈ items.eraseDups, item = kept ∨ (item == kept) = true := by
  induction hlength : items.length using Nat.strong_induction_on generalizing items with
  | _ length ih =>
      cases items with
      | nil => simp at hitem
      | cons first rest =>
          have hshorter : (rest.filter fun other => !other == first).length < length := by
            rw [← hlength]
            exact Nat.lt_succ_of_le (List.length_filter_le _ _)
          rw [List.eraseDups_cons]
          rcases List.mem_cons.mp hitem with rfl | hitem
          · exact ⟨item, List.mem_cons_self, .inl rfl⟩
          · cases hfirst : item == first with
            | true => exact ⟨first, List.mem_cons_self, .inr hfirst⟩
            | false =>
                have hkept : item ∈ rest.filter fun other => !other == first :=
                  List.mem_filter.mpr ⟨hitem, by simp [hfirst]⟩
                obtain ⟨kept, hmem, hsame⟩ := ih _ hshorter hkept rfl
                exact ⟨kept, List.mem_cons_of_mem _ hmem, hsame⟩

/-! ## Members of sets -/

namespace SetElement

/-- A member as it is read without a schema. -/
def returned (element : SetElement) : SetMember → Value
  | .text content =>
    if element.wireType = .stringSet then .string content else .ofNumberText content
  | .bytes content => .binary content

/-- A stored set is read member by member. -/
theorem natural_of_store? {element : SetElement} {members : List SetMember} {stored : WireValue}
    (htakes : ∀ member ∈ members, element.Takes member)
    (hstored : element.store? members = some stored) :
    stored.natural = .set (members.eraseDups.map element.returned) := by
  obtain ⟨hkind, hlisted, -⟩ := of_store? htakes hstored
  cases stored with
  | stringSet texts =>
      have hstring : element.wireType = .stringSet := hkind.symm
      obtain hmembers : texts.map SetMember.text = members.eraseDups := Option.some.inj hlisted
      rw [← hmembers, List.map_map]
      simp [WireValue.natural, returned, hstring, Function.comp_def]
  | numberSet texts =>
      have hnumber : element.wireType = .numberSet := hkind.symm
      obtain hmembers : texts.map SetMember.text = members.eraseDups := Option.some.inj hlisted
      rw [← hmembers, List.map_map]
      simp [WireValue.natural, returned, hnumber, Function.comp_def]
  | binarySet contents =>
      obtain hmembers : contents.map SetMember.bytes = members.eraseDups := Option.some.inj hlisted
      rw [← hmembers, List.map_map]
      simp [WireValue.natural, returned, Function.comp_def]
  | _ => cases hlisted

/-- How a member is stored in a set of one kind, and what should remain of it. -/
def Keeps : SetElement → SetMember → Value → Prop
  | .string, member, kept => ∃ text, member = .text text ∧ kept = .string text
  | .number, member, kept => ∃ x, x ≠ .nan ∧ member = .text x.text ∧ kept = .number x
  | .binary, member, kept => ∃ bytes, member = .bytes bytes ∧ kept = .binary bytes
  | .date _, member, kept => ∃ (millis : Int) (x : Binary64), millis.natAbs < 2 ^ 53 ∧
      member = .text (toString millis) ∧ kept = .number x ∧ x.equal (.ofInt millis) = true

variable {element : SetElement} {member other : SetMember} {kept last : Value}

/-- Members are stored alike if they are equal, and only then. -/
theorem Keeps.beq_eq (hkept : element.Keeps member kept) (hother : element.Keeps other last) :
    (member == other) = (kept == last) := by
  have hequal : ∀ a b : Value, (a == b) = a.equal b := fun _ _ => rfl
  rw [hequal, Bool.eq_iff_iff, beq_iff_eq]
  cases element with
  | string =>
      obtain ⟨text, rfl, rfl⟩ := hkept
      obtain ⟨text', rfl, rfl⟩ := hother
      simp [Value.equal]
  | binary =>
      obtain ⟨bytes, rfl, rfl⟩ := hkept
      obtain ⟨bytes', rfl, rfl⟩ := hother
      simp [Value.equal]
  | number =>
      obtain ⟨x, hx, rfl, rfl⟩ := hkept
      obtain ⟨y, hy, rfl, rfl⟩ := hother
      rw [SetMember.text.injEq, Value.equal]
      exact ⟨text_inj hx hy, Binary64.text_eq_of_equal⟩
  | date storage =>
      obtain ⟨n, x, hn, rfl, rfl, hx⟩ := hkept
      obtain ⟨m, y, hm, rfl, rfl, hy⟩ := hother
      rw [SetMember.text.injEq, Value.equal]
      constructor
      · intro htext
        have hparse := Binary64.parse?_toString_short hn
        rw [htext, Binary64.parse?_toString_short hm] at hparse
        rw [← Option.some.inj hparse] at hx
        exact Binary64.equal_of_equal_left (Binary64.equal_symm hx) (Binary64.equal_symm hy)
      · intro hxy
        have hround := (Binary64.roundToInt64_eq_of_equal hx).symm.trans
          ((Binary64.roundToInt64_eq_of_equal hxy).trans (Binary64.roundToInt64_eq_of_equal hy))
        rw [Binary64.roundToInt64_ofInt hn, Binary64.roundToInt64_ofInt hm] at hround
        rw [hround]

/-- What is read of a member is equal to what should remain. -/
theorem Keeps.returned_equal
    (hmillis : ∀ storage, element = .date storage → storage = .milliseconds)
    (hkept : element.Keeps member kept) : (element.returned member).equal kept = true := by
  cases element with
  | string =>
      obtain ⟨text, rfl, rfl⟩ := hkept
      simp [returned, wireType, Value.equal]
  | binary =>
      obtain ⟨bytes, rfl, rfl⟩ := hkept
      simp [returned, Value.equal]
  | number =>
      obtain ⟨x, hx, rfl, rfl⟩ := hkept
      obtain ⟨y, hparse, hequal⟩ := Binary64.exists_parse?_text hx
      simpa [returned, wireType, Value.ofNumberText, hparse, Value.equal] using hequal
  | date storage =>
      obtain rfl := hmillis storage rfl
      obtain ⟨n, x, hn, rfl, rfl, hx⟩ := hkept
      rw [returned, if_neg (by decide), Value.ofNumberText, Binary64.parse?_toString_short hn,
        Option.getD_some, Value.equal]
      exact Binary64.equal_symm hx

/-! ### Members that can be collected -/

theorem exists_keeps_of_collects {first value : Value} (hnumeric : value.Numeric)
    (hcollects : (ofFirst first).Collects value) :
    ∃ member kept, (ofFirst first).member? value = some member ∧ value.remains = some kept ∧
      (ofFirst first).Keeps member kept := by
  cases helement : ofFirst first with
  | string =>
      rw [helement] at hcollects
      obtain ⟨text, rfl⟩ := hcollects
      exact ⟨_, _, rfl, by simp [Value.remains], text, rfl, rfl⟩
  | number =>
      rw [helement] at hcollects
      obtain ⟨x, rfl⟩ := hcollects
      exact ⟨_, _, rfl, by simp [Value.remains], x, hnumeric, rfl, rfl⟩
  | binary =>
      rw [helement] at hcollects
      obtain ⟨bytes, rfl⟩ := hcollects
      exact ⟨_, _, rfl, by simp [Value.remains], bytes, rfl, rfl⟩
  | date storage =>
      rw [helement] at hcollects
      obtain rfl : storage = .milliseconds := by
        cases first <;> simp_all [ofFirst]
      rcases hcollects with ⟨t, rfl⟩ | ⟨x, n, rfl, hx, hdate⟩
      · exact ⟨_, _, rfl, by rw [Value.remains], t.millis, _, t.millis_lt, rfl, rfl,
          Binary64.equal_ofInt t.millis_lt⟩
      · obtain ⟨t, ht⟩ := Option.isSome_iff_exists.mp hdate
        obtain rfl := Instant.millis_of_ofMillis? ht
        have hfinite : x.isFinite = true :=
          (Binary64.isFinite_eq_of_equal hx).trans (Binary64.isFinite_ofInt t.millis_lt)
        have hvalue : (Value.number x).date? = some t := by
          rw [Value.date?, hfinite, if_pos rfl, Instant.ofNumber?,
            Binary64.roundToInt64_eq_of_equal hx, Binary64.roundToInt64_ofInt t.millis_lt, ht]
        refine ⟨.text (toString t.millis), .number x, ?_, by simp [Value.remains],
          t.millis, x, t.millis_lt, rfl, rfl, hx⟩
        rw [member?, hvalue]
        rfl

/-- What is a member of a set of texts, numbers or binary data is of this kind. -/
theorem collects_of_member? (hdate : ∀ storage, element ≠ .date storage) {value : Value}
    (hmember : element.member? value = some member) : element.Collects value := by
  cases element with
  | date storage => exact absurd rfl (hdate storage)
  | _ => cases value <;> simp_all [member?, Collects]

/-- A set of dates with which nothing is wrong has numbers that are dates. -/
theorem collects_of_equal {storage : DateStorage} {value : Value} {t : Instant} {millis : Int}
    (hshort : millis.natAbs < 2 ^ 53) (hvalue : value.date? = some t)
    (hnumber : ∀ x, value = .number x → x.equal (.ofInt millis) = true) :
    (SetElement.date storage).Collects value := by
  cases value with
  | date instant => exact .inl ⟨instant, rfl⟩
  | number x =>
      have hx := hnumber x rfl
      refine .inr ⟨x, millis, rfl, hx, ?_⟩
      rw [Value.date?] at hvalue
      split at hvalue
      · rw [Instant.ofNumber?, Binary64.roundToInt64_eq_of_equal hx,
          Binary64.roundToInt64_ofInt hshort] at hvalue
        rw [hvalue]
        rfl
      · cases hvalue
  | _ => cases hvalue

theorem members_of_collects {first : Value} : ∀ {values : List Value}, Value.ItemsNumeric values →
    (∀ value ∈ values, (ofFirst first).Collects value) →
    ∃ encodings, (ofFirst first).members values = .ok encodings ∧
      List.Forall₂ (ofFirst first).Keeps encodings (Value.remainingItems values)
  | [], _, _ => ⟨[], rfl, .nil⟩
  | value :: rest, hnumeric, hcollects => by
      rw [List.forall_mem_cons] at hcollects
      obtain ⟨member, kept, hmember, hremains, hkeeps⟩ :=
        exists_keeps_of_collects hnumeric.1 hcollects.1
      obtain ⟨others, hothers, hrest⟩ := members_of_collects hnumeric.2 hcollects.2
      refine ⟨member :: others, ?_, ?_⟩
      · rw [members, hmember, hothers]
        rfl
      · rw [Value.remainingItems, hremains]
        exact .cons hkeeps hrest

theorem exists_store? (element : SetElement) {members : List SetMember} (hne : members ≠ []) :
    ∃ stored, element.store? members = some stored := by
  cases members with
  | nil => exact absurd rfl hne
  | cons first rest =>
      rw [store?, List.eraseDups_cons]
      split
      · contradiction
      · split <;> exact ⟨_, rfl⟩

theorem takes_of_members {values : List Value} {members : List SetMember}
    (hmembers : element.members values = .ok members) :
    ∀ member ∈ members, element.Takes member := by
  intro member hmem
  obtain ⟨value, -, hmember⟩ := exists_related_right (forall₂_of_members hmembers) hmem
  exact takes_of_member? hmember

/-- The members of a set of dates are numbers of milliseconds. -/
theorem returned_of_member? {value : Value}
    (hmember : (SetElement.date .milliseconds).member? value = some member) :
    ∃ t, value.date? = some t ∧
      (SetElement.date .milliseconds).returned member = .number (.ofInt t.millis) := by
  obtain ⟨t, ht, htext⟩ := Option.bind_eq_some_iff.mp hmember
  obtain ⟨_, hscalar, rfl⟩ := Option.map_eq_some_iff.mp htext
  obtain rfl := Option.some.inj hscalar
  refine ⟨t, ht, ?_⟩
  rw [returned, if_neg (by decide), Value.ofNumberText, Binary64.parse?_toString_short t.millis_lt,
    Option.getD_some]

end SetElement

/-! ## Whole values -/

namespace Value

/-- What is read of the natural form of a value is what should remain of it. -/
def Returns (value : Value) : Prop :=
  Option.Rel (fun back kept => back.equal kept = true) (value.natural?.map WireValue.natural)
    value.remains

theorem equalItems_iff_forall₂ {items others : List Value} : equalItems items others = true ↔
    List.Forall₂ (fun item other => item.equal other = true) items others := by
  induction items generalizing others with
  | nil => cases others <;> simp [equalItems]
  | cons item rest ih => cases others <;> simp [equalItems, ih]

theorem mem_remainingItems {items : List Value} {item kept : Value} (hitem : item ∈ items)
    (hkept : item.remains = some kept) : kept ∈ remainingItems items := by
  induction items with
  | nil => simp at hitem
  | cons first rest ih =>
      rw [remainingItems, List.mem_append]
      rcases List.mem_cons.mp hitem with rfl | hitem
      · exact .inl (by simp [hkept])
      · exact .inr (ih hitem)

/-- Where dates are returned as they should be, the numbers among them are dates. -/
theorem collects_of_returned {members : List Value} {encodings : List SetMember}
    (hall : List.Forall₂ (fun value member =>
      (SetElement.date .milliseconds).member? value = some member) members encodings)
    (hequal : equalItems (encodings.eraseDups.map (SetElement.date .milliseconds).returned)
      (remainingItems members).eraseDups = true)
    {value : Value} (hvalue : value ∈ members) {encoding : SetMember}
    (hencoding : (SetElement.date .milliseconds).member? value = some encoding) :
    (SetElement.date .milliseconds).Collects value := by
  obtain ⟨t, ht, -⟩ := SetElement.returned_of_member? hencoding
  cases value with
  | date instant => exact .inl ⟨instant, rfl⟩
  | number x =>
      -- what remains of the number is equal to what was read of some member, which is an integer
      have hremains : (Value.number x).remains = some (.number x) := by simp [remains]
      obtain ⟨kept, hkept, hsame⟩ := exists_mem_eraseDups (mem_remainingItems hvalue hremains)
      obtain ⟨back, hback, hbackEqual⟩ :=
        exists_related_right (equalItems_iff_forall₂.mp hequal) hkept
      obtain ⟨member, hmember, rfl⟩ := List.mem_map.mp hback
      obtain ⟨other, -, hother⟩ := exists_related_right hall (List.mem_eraseDups.mp hmember)
      obtain ⟨u, -, hreturned⟩ := SetElement.returned_of_member? hother
      rw [hreturned] at hbackEqual
      have hx : x.equal (.ofInt u.millis) = true := by
        rcases hsame with rfl | hsame
        · exact Binary64.equal_symm hbackEqual
        · cases kept with
          | number y =>
              exact Binary64.equal_of_equal_left (Binary64.equal_symm hsame)
                (Binary64.equal_symm hbackEqual)
          | _ => simp [equal] at hbackEqual
      refine SetElement.collects_of_equal u.millis_lt ht fun y heq => ?_
      obtain rfl := Value.number.inj heq
      exact hx
  | _ => cases ht

/-- A set of one kind is returned. -/
theorem set_returns {members : List Value} (hnumeric : ItemsNumeric members)
    (halike : (Value.set members).SetsAlike) : (Value.set members).Returns := by
  cases members with
  | nil => exact .none
  | cons first rest =>
      obtain ⟨encodings, hmembers, hkeeps⟩ :=
        SetElement.members_of_collects hnumeric (halike first (by simp))
      have hne : encodings ≠ [] := by
        rintro rfl
        exact absurd (SetElement.forall₂_of_members hmembers) (by simp)
      obtain ⟨stored, hstored⟩ := (SetElement.ofFirst first).exists_store? hne
      have hnatural : (Value.set (first :: rest)).natural? = some stored := by
        rw [natural?, SetElement.encode, hmembers, Except.map, hstored]
      have hread := SetElement.natural_of_store? (SetElement.takes_of_members hmembers) hstored
      have hmillis : ∀ storage, SetElement.ofFirst first = .date storage →
          storage = .milliseconds := by
        intro storage helement
        cases first <;> simp_all [SetElement.ofFirst]
      have hequal := (forall₂_eraseDups SetElement.Keeps.beq_eq hkeeps).imp
        fun _ _ hkept => hkept.returned_equal hmillis
      rw [Returns, hnatural, Option.map_some, hread, remains, if_neg (by simp)]
      refine .some ?_
      rw [equal]
      exact equalItems_iff_forall₂.mpr (List.forall₂_map_left_iff.mpr hequal)

/-- A set that is returned is of one kind. -/
theorem alike_of_set_returns {members : List Value} (hreturns : (Value.set members).Returns) :
    (Value.set members).SetsAlike := by
  intro first hfirst member hmem
  obtain ⟨rest, rfl⟩ : ∃ rest, members = first :: rest := by
    cases members with
    | nil => simp at hfirst
    | cons other rest => exact ⟨rest, by simpa using hfirst⟩
  rw [Returns, remains, if_neg (by simp)] at hreturns
  cases hnatural : (Value.set (first :: rest)).natural? with
  | none =>
      rw [hnatural] at hreturns
      cases hreturns
  | some stored =>
      rw [hnatural, Option.map_some] at hreturns
      obtain ⟨encodings, hmembers, hstored⟩ : ∃ encodings,
          (SetElement.ofFirst first).members (first :: rest) = .ok encodings ∧
            (SetElement.ofFirst first).store? encodings = some stored := by
        rw [natural?, SetElement.encode] at hnatural
        cases hmembers : (SetElement.ofFirst first).members (first :: rest) with
        | error wrong => simp [hmembers, Except.map] at hnatural
        | ok encodings => exact ⟨encodings, rfl, by simpa [hmembers, Except.map] using hnatural⟩
      have hall := SetElement.forall₂_of_members hmembers
      obtain ⟨encoding, -, hmember⟩ := exists_related_left hall hmem
      rw [SetElement.natural_of_store? (SetElement.takes_of_members hmembers) hstored] at hreturns
      by_cases hdate : ∃ storage, SetElement.ofFirst first = .date storage
      · have helement : SetElement.ofFirst first = .date .milliseconds := by
          obtain ⟨storage, helement⟩ := hdate
          cases first <;> simp_all [SetElement.ofFirst]
        rw [helement] at hall hmember hreturns ⊢
        cases hreturns with
        | some hequal =>
            rw [equal] at hequal
            exact collects_of_returned hall hequal hmem hmember
      · exact SetElement.collects_of_member? (fun storage h => hdate ⟨storage, h⟩) hmember

/-! ### Lists and maps

Nothing is returned that should be left out, so a list that is returned has lost no item. -/

theorem natural?_of_remains_none {value : Value} (hnone : value.remains = none) :
    value.natural? = none := by
  cases value with
  | undefined => rfl
  | set members =>
      cases members with
      | nil => rfl
      | cons first rest => simp [remains] at hnone
  | _ => simp [remains] at hnone

theorem length_eq_of_equalFields {fields others : List (String × Value)}
    (hequal : equalFields fields others = true) : fields.length = others.length := by
  induction fields generalizing others with
  | nil =>
      cases others with
      | nil => rfl
      | cons => simp [equalFields] at hequal
  | cons field rest ih =>
      cases others with
      | nil => simp [equalFields] at hequal
      | cons other others =>
          rw [equalFields, Bool.and_eq_true] at hequal
          rw [List.length_cons, List.length_cons, ih hequal.2]

variable {back kept : Option Value}

theorem equalItems_append_iff {backs others : List Value} (hnone : kept = none → back = none)
    (hlength : backs.length ≤ others.length) :
    equalItems (back.toList ++ backs) (kept.toList ++ others) = true ↔
      Option.Rel (fun back kept => back.equal kept = true) back kept ∧
        equalItems backs others = true := by
  cases back with
  | some back =>
      cases kept with
      | none => cases hnone rfl
      | some kept => simp [equalItems]
  | none =>
      cases kept with
      | none => simp
      | some kept =>
          refine ⟨fun hequal => ?_, fun ⟨hrel, _⟩ => nomatch hrel⟩
          have hsame := (equalItems_iff_forall₂.mp hequal).length_eq
          simp only [Option.toList_none, Option.toList_some, List.nil_append, List.length_append,
            List.length_singleton] at hsame
          omega

theorem equalFields_append_iff {key : String} {backs others : List (String × Value)}
    (hnone : kept = none → back = none) (hlength : backs.length ≤ others.length) :
    equalFields ((back.map fun value => (key, value)).toList ++ backs)
        ((kept.map fun value => (key, value)).toList ++ others) = true ↔
      Option.Rel (fun back kept => back.equal kept = true) back kept ∧
        equalFields backs others = true := by
  cases back with
  | some back =>
      cases kept with
      | none => cases hnone rfl
      | some kept => simp [equalFields]
  | none =>
      cases kept with
      | none => simp
      | some kept =>
          refine ⟨fun hequal => ?_, fun ⟨hrel, _⟩ => nomatch hrel⟩
          have hsame := length_eq_of_equalFields hequal
          simp only [Option.map_none, Option.map_some, Option.toList_none, Option.toList_some,
            List.nil_append, List.length_append, List.length_singleton] at hsame
          omega

/-- The items that are read of the natural form of a list. -/
def returnedItems (items : List Value) : List Value :=
  WireValue.naturalItems (naturalItems items)

def returnedFields (fields : List (String × Value)) : List (String × Value) :=
  WireValue.naturalFields (naturalFields fields)

theorem returnedItems_cons (item : Value) (rest : List Value) :
    returnedItems (item :: rest) =
      (item.natural?.map WireValue.natural).toList ++ returnedItems rest := by
  unfold returnedItems
  rw [naturalItems]
  cases item.natural? <;> rfl

theorem returnedFields_cons (key : String) (value : Value) (rest : List (String × Value)) :
    returnedFields ((key, value) :: rest) =
      ((value.natural?.map WireValue.natural).map fun back => (key, back)).toList ++
        returnedFields rest := by
  unfold returnedFields
  rw [naturalFields]
  cases value.natural? <;> rfl

theorem returned_none {value : Value} (hnone : value.remains = none) :
    value.natural?.map WireValue.natural = none := by
  rw [natural?_of_remains_none hnone, Option.map_none]

theorem length_returnedItems_le (items : List Value) :
    (returnedItems items).length ≤ (remainingItems items).length := by
  induction items with
  | nil => exact Nat.le_refl _
  | cons item rest ih =>
      rw [returnedItems_cons, remainingItems, List.length_append, List.length_append]
      refine Nat.add_le_add ?_ ih
      cases hkept : item.remains with
      | none => rw [returned_none hkept]
      | some kept => cases item.natural?.map WireValue.natural <;> simp

theorem length_returnedFields_le (fields : List (String × Value)) :
    (returnedFields fields).length ≤ (remainingFields fields).length := by
  induction fields with
  | nil => exact Nat.le_refl _
  | cons field rest ih =>
      obtain ⟨key, value⟩ := field
      rw [returnedFields_cons, remainingFields, List.length_append, List.length_append]
      refine Nat.add_le_add ?_ ih
      cases hkept : value.remains with
      | none => rw [returned_none hkept]
      | some kept => cases value.natural?.map WireValue.natural <;> simp

mutual

/-- A value without not-a-number is returned as it should be exactly if every set in it is of one
kind. -/
theorem returns_iff_alike : ∀ value : Value, value.Numeric → (value.Returns ↔ value.SetsAlike)
  | .list items, hnumeric => by
      have hitems := returnedItems_iff_alike items hnumeric
      rw [Returns, natural?, remains, Option.map_some, WireValue.natural, Option.rel_some_some,
        equal]
      exact hitems
  | .map fields, hnumeric => by
      have hfields := returnedFields_iff_alike fields hnumeric
      rw [Returns, natural?, remains, Option.map_some, WireValue.natural, Option.rel_some_some,
        equal]
      exact hfields
  | .set members, hnumeric => ⟨alike_of_set_returns, set_returns hnumeric⟩
  | .number x, hnumeric => by
      obtain ⟨y, hparse, hequal⟩ := Binary64.exists_parse?_text hnumeric
      rw [Returns, natural?, Option.map_some, WireValue.natural, ofNumberText, hparse,
        Option.getD_some]
      simp [remains, equal, hequal, SetsAlike]
  | .date t, _ => by
      have hequal := Binary64.equal_ofInt t.millis_lt
      rw [Returns, natural?, Option.map_some, WireValue.ofDate, WireValue.natural, ofNumberText,
        Binary64.parse?_toString_short t.millis_lt, Option.getD_some, remains,
        Option.rel_some_some, equal, hequal]
      simp [SetsAlike]
  | .undefined, _ => by simp [Returns, natural?, remains, SetsAlike]
  | .null, _ | .bool _, _ | .string _, _ | .binary _, _ => by
      simp [Returns, natural?, remains, SetsAlike, WireValue.natural, equal]

theorem returnedItems_iff_alike : ∀ items : List Value, ItemsNumeric items →
    (equalItems (returnedItems items) (remainingItems items) = true ↔ ItemsAlike items)
  | [], _ => by simp [returnedItems, naturalItems, WireValue.naturalItems, remainingItems,
      equalItems, ItemsAlike]
  | item :: rest, hnumeric => by
      rw [returnedItems_cons, remainingItems, equalItems_append_iff returned_none
        (length_returnedItems_le rest), returnedItems_iff_alike rest hnumeric.2, ItemsAlike]
      exact and_congr_left fun _ => returns_iff_alike item hnumeric.1

theorem returnedFields_iff_alike : ∀ fields : List (String × Value), FieldsNumeric fields →
    (equalFields (returnedFields fields) (remainingFields fields) = true ↔ FieldsAlike fields)
  | [], _ => by simp [returnedFields, naturalFields, WireValue.naturalFields, remainingFields,
      equalFields, FieldsAlike]
  | (key, value) :: rest, hnumeric => by
      rw [returnedFields_cons, remainingFields, equalFields_append_iff returned_none
        (length_returnedFields_le rest), returnedFields_iff_alike rest hnumeric.2, FieldsAlike]
      exact and_congr_left fun _ => returns_iff_alike value hnumeric.1

end

end Value

end ItemMapper
