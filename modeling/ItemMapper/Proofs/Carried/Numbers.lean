import ItemMapper.Proofs.Carried.Expressions
import ItemMapper.Proofs.Number.Numeral

/-!
# Numbers are stored as numerals

The text of a stored number should be a numeral.  It is one for finite numbers and for dates, while
the other numbers are stored by their words, which nothing checks (`Mapper.gauge_stores_words`).
They come from nowhere else: a text that is no numeral is the text of a number that was given to
the mapper, in a document, an operand, an update, or by a function of the application
(`Mapper.number_texts_given`).  So all numbers are stored as numerals where all given numbers are
finite.
-/

namespace ItemMapper

variable {σ : Type}

open Pipeline Decimal

/-! ## Numbers at any depth -/

namespace Value

mutual

/-- The numbers in a value, at any depth. -/
def numbers : Value → List Binary64
  | .number x => [x]
  | .list items | .set items => itemNumbers items
  | .map fields => fieldNumbers fields
  | _ => []

def itemNumbers : List Value → List Binary64
  | [] => []
  | item :: rest => item.numbers ++ itemNumbers rest

def fieldNumbers : List (String × Value) → List Binary64
  | [] => []
  | (_, value) :: rest => value.numbers ++ fieldNumbers rest

end

theorem mem_itemNumbers {items : List Value} {x : Binary64} :
    x ∈ itemNumbers items ↔ ∃ item ∈ items, x ∈ item.numbers := by
  induction items with
  | nil => simp [itemNumbers]
  | cons item rest ih => simp [itemNumbers, ih]

theorem mem_fieldNumbers {fields : List (String × Value)} {x : Binary64} :
    x ∈ fieldNumbers fields ↔ ∃ field ∈ fields, x ∈ field.2.numbers := by
  induction fields with
  | nil => simp [fieldNumbers]
  | cons field rest ih => simp [fieldNumbers, ih]

/-- All numbers in a value are some of those given. -/
def Among (given : Binary64 → Prop) (value : Value) : Prop :=
  ∀ x ∈ value.numbers, given x

end Value

namespace WireValue

mutual

/-- The texts of all numbers in a stored value, at any depth.  Sets list some, too. -/
def numberTexts : WireValue → List String
  | .number text => [text]
  | .numberSet texts => texts
  | .list items => itemNumberTexts items
  | .map fields => fieldNumberTexts fields
  | _ => []

def itemNumberTexts : List WireValue → List String
  | [] => []
  | item :: rest => item.numberTexts ++ itemNumberTexts rest

def fieldNumberTexts : List (String × WireValue) → List String
  | [] => []
  | (_, value) :: rest => value.numberTexts ++ fieldNumberTexts rest

end

theorem mem_itemNumberTexts {items : List WireValue} {text : String} :
    text ∈ itemNumberTexts items ↔ ∃ item ∈ items, text ∈ item.numberTexts := by
  induction items with
  | nil => simp [itemNumberTexts]
  | cons item rest ih => simp [itemNumberTexts, ih]

theorem mem_fieldNumberTexts {fields : List (String × WireValue)} {text : String} :
    text ∈ fieldNumberTexts fields ↔ ∃ field ∈ fields, text ∈ field.2.numberTexts := by
  induction fields with
  | nil => simp [fieldNumberTexts]
  | cons field rest ih => simp [fieldNumberTexts, ih]

/-- A text is a numeral or the word for one of the given numbers. -/
def Tells (given : Binary64 → Prop) (text : String) : Prop :=
  IsNumeral text ∨ ∃ x, given x ∧ x.isFinite = false ∧ text = x.text

end WireValue

open WireValue

/-! ## What numbers are stored as -/

section Numbers

variable {given : Binary64 → Prop}

theorem WireValue.tells_text {x : Binary64} (hgiven : given x) : Tells given x.text := by
  cases hfinite : x.isFinite with
  | true => exact .inl (Binary64.isNumeral_text_iff.mpr hfinite)
  | false => exact .inr ⟨x, hgiven, hfinite, rfl⟩

theorem WireValue.tells_of_ofDate {instant : Instant} {storage : DateStorage} {text : String}
    (htext : text ∈ (ofDate instant storage).numberTexts) : Tells given text := by
  cases storage with
  | milliseconds =>
      obtain rfl := List.mem_singleton.mp htext
      exact .inl (isNumeral_toString _)
  | seconds =>
      obtain rfl := List.mem_singleton.mp htext
      exact .inl (isNumeral_toString _)
  | iso => simp [ofDate, numberTexts] at htext

/-- The members of a set of numbers are numbers or dates. -/
theorem SetElement.Encodes.tells {kind : SetElement} {members : List Value} {texts : List String}
    (hgiven : ∀ member ∈ members, member.Among given)
    (hencodes : kind.Encodes members (.numberSet texts)) : ∀ text ∈ texts, Tells given text := by
  obtain ⟨listed, encodings, hlisted, hencodings, honce⟩ := hencodes.members
  obtain rfl := Option.some.inj hlisted
  intro text htext
  obtain ⟨member, hmember, hstored⟩ := exists_related_right hencodings
    ((honce.mem_iff _).mp (List.mem_map_of_mem htext))
  have hwire := hencodes.wireType
  cases kind with
  | string | binary => cases hwire
  | number =>
      cases member <;> simp only [member?, Option.some.injEq, SetMember.text.injEq, reduceCtorEq]
        at hstored
      next x => exact hstored ▸ tells_text (hgiven _ hmember x (by simp [Value.numbers]))
  | date storage =>
      obtain ⟨instant, -, hscalar⟩ := Option.bind_eq_some_iff.mp hstored
      obtain ⟨_, hdate, hsame⟩ := Option.map_eq_some_iff.mp hscalar
      obtain rfl := SetMember.text.inj hsame
      refine @tells_of_ofDate given instant storage _ ?_
      cases storage with
      | milliseconds | seconds => exact List.mem_singleton.mpr (Option.some.inj hdate).symm
      | iso => cases hwire

/-- Numbers among the given ones are stored as numerals or by their words. -/
theorem carries_numberTexts (given : Binary64 → Prop) :
    Carries (Value.Among given) (fun stored => ∀ text ∈ stored.numberTexts, Tells given text) where
  list_iff := by
    intro items
    simp only [Value.Among, Value.numbers, Value.mem_itemNumbers]
    exact ⟨fun h item hitem x hx => h x ⟨item, hitem, hx⟩,
      fun h x ⟨item, hitem, hx⟩ => h item hitem x hx⟩
  fields := by
    intro fields hgiven field hfield x hx
    exact hgiven x (Value.mem_fieldNumbers.mpr ⟨field, hfield, hx⟩)
  members := by
    intro members hgiven member hmember x hx
    exact hgiven x (Value.mem_itemNumbers.mpr ⟨member, hmember, hx⟩)
  givenDate := by simp [Value.Among, Value.numbers]
  givenString := by simp [Value.Among, Value.numbers]
  list := by
    intro items hitems text htext
    obtain ⟨item, hitem, htext⟩ := mem_itemNumberTexts.mp htext
    exact hitems item hitem text htext
  map := by
    intro fields hfields text htext
    obtain ⟨field, hfield, htext⟩ := mem_fieldNumberTexts.mp htext
    exact hfields field hfield text htext
  null := by simp [numberTexts]
  boolean := by simp [numberTexts]
  string := by simp [numberTexts]
  binary := by simp [numberTexts]
  number := by
    intro x hgiven text htext
    obtain rfl := List.mem_singleton.mp htext
    exact tells_text (hgiven x (by simp [Value.numbers]))
  date := fun _ _ _ htext => tells_of_ofDate htext
  set := by
    intro kind members form hgiven hencodes
    cases form with
    | numberSet texts => exact hencodes.tells hgiven
    | number text | list items | map fields =>
        obtain ⟨_, _, hlisted, -⟩ := hencodes.members
        cases hlisted
    | _ => simp [numberTexts]

end Numbers

/-- The other numbers are written by words. -/
theorem not_isNumeral_text {x : Binary64} (hfinite : x.isFinite = false) : ¬ IsNumeral x.text := by
  rw [Binary64.isNumeral_text_iff, hfinite]
  exact Bool.false_ne_true

/-- A number is never refused where numbers are declared. -/
theorem Scope.encode_number (scope : Scope σ) (place : Place) (x : Binary64) :
    scope.encode place [.primitive .number] (.number x) = .ok (some (.number x.text)) :=
  rfl

/-- Whatever a mapper stores and asks for, the texts of numbers are numerals, except those of given
numbers that are not finite.  Just these have no numeral, and still they are stored. -/
theorem Mapper.number_texts_given (mapper : Mapper σ) (given : Binary64 → Prop)
    (hsupplies : mapper.scope.Supplies (Value.Among given)) :
    (∀ writing document before item after, (∀ entry ∈ document, entry.2.Among given) →
      Yields (mapper.write writing document) before item after →
        ∀ text ∈ fieldNumberTexts item, Tells given text) ∧
    (∀ document item, (∀ entry ∈ document, entry.2.Among given) →
      mapper.key document = .ok item → ∀ text ∈ fieldNumberTexts item, Tells given text) ∧
    (∀ condition compiled, condition.Asks (Value.Among given) →
      mapper.condition condition = .ok compiled →
        ∀ text ∈ fieldNumberTexts compiled.values, Tells given text) ∧
    (∀ writing current changes before compiled after, (∀ entry ∈ current, entry.2.Among given) →
      (∀ entry ∈ changes, entry.2.Among given) →
      Yields (mapper.update writing current changes) before compiled after →
        ∀ text ∈ fieldNumberTexts compiled.values, Tells given text) ∧
    ∀ place x, mapper.scope.encode place [.primitive .number] (.number x) =
        .ok (some (.number x.text)) ∧
      (IsNumeral x.text ↔ x.isFinite = true) := by
  have hcarries := carries_numberTexts given
  have htexts : ∀ {fields : List (String × WireValue)},
      (∀ field ∈ fields, ∀ text ∈ field.2.numberTexts, Tells given text) →
        ∀ text ∈ fieldNumberTexts fields, Tells given text :=
    fun hfields => hcarries.map hfields
  refine ⟨fun writing document before item after hgiven hrun => htexts ?_,
    fun document item hgiven hkey => htexts ?_, fun condition compiled hgiven hcompiled => htexts ?_,
    fun writing current changes before compiled after hcurrent hchanges hrun => htexts ?_,
    fun place x => ⟨mapper.scope.encode_number place x, Binary64.isNumeral_text_iff⟩⟩
  · exact Frame.carries_write hcarries hsupplies hgiven hrun
  · exact carries_key hcarries hgiven hkey
  · exact Scope.carries_compileCondition hcarries hgiven hcompiled
  · exact Scope.carries_compileUpdate hcarries hsupplies hcurrent hchanges hrun

/-! ## Gauges -/

/-- A gauge shows a level, which is 20 if nothing else is known, and has marks. -/
def SchemaOf.gauge : Schema Unit where
  attributes := [.plain "id" [.primitive .string],
    { AttributeOf.plain "level" [.primitive .number] with
      defaultValue := some (.literal (.number (.ofInt 20))) },
    .plain "marks" [.set (.primitive .number)]]
  keepUnknown := .everything
  timestamps := none

/-- The mapper of the only model, which has the schema `SchemaOf.gauge`. -/
def Mapper.gauge : Mapper Unit :=
  ⟨⟨[⟨"Gauge", .gauge, none⟩]⟩, ⟨"Gauge", .gauge, none⟩⟩

theorem Scope.closed_gauge : Mapper.gauge.scope.Closed
    (fun scope schema => scope = Mapper.gauge.scope ∧ schema = .gauge)
    (fun scope type => scope = Mapper.gauge.scope ∧
      (type = .primitive .string ∨ type = .primitive .number ∨ type = .set (.primitive .number))) :=
  .of_noModel (by simp [Mapper.gauge, Mapper.scope]) (by simp) (by simp)
    (by simp [SchemaOf.gauge, AttributeOf.plain]) (by simp)

/-- The only number that the schema of a gauge brings in is finite. -/
theorem Scope.supplies_gauge :
    Mapper.gauge.scope.Supplies (Value.Among fun x => x.isFinite = true) := by
  rintro schema ⟨scope, hreaches⟩ field hfield
  obtain ⟨-, rfl⟩ := closed_gauge.of_reaches hreaches
  have hfields : ∀ field ∈ SchemaOf.gauge.attributes, field.writeModifiers = [] ∧
      (field.defaultValue = none ∨
        field.defaultValue = some (.literal (.number (.ofInt 20)))) := by
    simp [SchemaOf.gauge, AttributeOf.plain]
  obtain ⟨hmodifiers, hdefault⟩ := hfields field hfield
  constructor
  · intro now document value hgiven hvalue
    rcases hdefault with hnone | hliteral
    · obtain ⟨_, _, _, hrun⟩ := hvalue
      simp [evaluateDefault, hnone] at hrun
    · have hfinite : (Binary64.ofInt 20).isFinite = true := by decide +kernel
      rw [hvalue.eq_of_literal hliteral]
      simpa [Value.Among, Value.numbers] using hfinite
  · intro options value other hgiven hother
    unfold AttributeOf.ModifiesTo at hother
    split at hother
    · obtain ⟨_, _, _, hrun⟩ := hother
      simp only [hmodifiers, applyModifiers, List.foldlM_nil, yields_pure] at hrun
      exact hrun.1 ▸ hgiven
    · exact hother ▸ hgiven

namespace Mapper

/-- The words of numbers that are not finite are stored in an item and asked for in a condition and
in an update. -/
theorem gauge_stores_words :
    Yields (gauge.write ⟨.plain, .epoch, 0⟩ [("id", .string "1"), ("level", .number .nan)]) ()
      [("id", .string "1"), ("level", .number "NaN")] () ∧
    gauge.condition ⟨⟨[.comparison ⟨"level", .less, [.number (.infinite false)]⟩], []⟩, none, false,
      none⟩ = .ok ⟨"#a0 < :v0", [("#a0", "level")], [(":v0", .number "inf")]⟩ ∧
    Yields (gauge.update ⟨.update, .epoch, 0⟩ []
        [("$ADD", .map [("level", .number (.infinite true))])]) ()
      ⟨"ADD #a0 :v0", [("#a0", "level")], [(":v0", .number "-inf")]⟩ () ∧
    ¬ IsNumeral "NaN" ∧ ¬ IsNumeral "inf" ∧ ¬ IsNumeral "-inf" :=
  ⟨yields_of_value? (by decide +kernel), Except.toOption_eq_some.mp (by decide +kernel),
    yields_of_value? (by decide +kernel), not_isNumeral_text (x := .nan) rfl,
    not_isNumeral_text (x := .infinite false) rfl, not_isNumeral_text (x := .infinite true) rfl⟩

theorem number_texts_given_gauge :
    gauge.scope.Supplies (Value.Among fun x => x.isFinite = true) ∧
    (∀ text ∈ fieldNumberTexts [("id", .string "1"), ("level", .number "20"),
      ("marks", .numberSet ["0.5", "-7"])], Tells (fun x => x.isFinite = true) text) ∧
    (∀ text ∈ fieldNumberTexts [(":v0", .number "0.5")], Tells (fun x => x.isFinite = true) text) ∧
    (∀ text ∈ fieldNumberTexts [(":v0", .number "-7"), (":v1", .numberSet ["0.5"])],
      Tells (fun x => x.isFinite = true) text) ∧
    IsNumeral (Binary64.ofRatio false 1 2).text := by
  have hsupplies := Scope.supplies_gauge
  have hhalf : (Binary64.ofRatio false 1 2).isFinite = true := by decide +kernel
  have hseven : (Binary64.ofInt (-7)).isFinite = true := by decide +kernel
  obtain ⟨hwrite, -, hcondition, hupdate, hnumber⟩ := number_texts_given gauge _ hsupplies
  refine ⟨hsupplies, ?_, ?_, ?_, (hnumber .root _).2.mpr hhalf⟩
  · refine hwrite ⟨.save, .epoch, 0⟩ [("id", .string "1"),
      ("marks", .set [.number (.ofRatio false 1 2), .number (.ofInt (-7))])] () _ () ?_
      (yields_of_value? (by decide +kernel))
    simp [Value.Among, Value.numbers, Value.itemNumbers, hhalf, hseven]
  · refine hcondition ⟨⟨[.comparison ⟨"level", .less, [.number (.ofRatio false 1 2)]⟩], []⟩, none,
      false, none⟩ ⟨"#a0 < :v0", [("#a0", "level")], [(":v0", .number "0.5")]⟩ ?_
      (Except.toOption_eq_some.mp (by decide +kernel))
    simp [Condition.Asks, ConditionNode.allComparisons, ConditionNode.comparisons, Value.Among,
      Value.numbers, hhalf]
  · refine hupdate ⟨.update, .epoch, 0⟩ [] [("$ADD", .map [("level", .number (.ofInt (-7)))]),
        ("$DELETE", .map [("marks", .set [.number (.ofRatio false 1 2)])])] ()
      ⟨"ADD #a0 :v0 DELETE #a1 :v1", [("#a0", "level"), ("#a1", "marks")],
        [(":v0", .number "-7"), (":v1", .numberSet ["0.5"])]⟩ () (by simp) ?_
      (yields_of_value? (by decide +kernel))
    simp [Value.Among, Value.numbers, Value.itemNumbers, Value.fieldNumbers, hhalf, hseven]

end Mapper

end ItemMapper
