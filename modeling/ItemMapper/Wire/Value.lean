import ItemMapper.Fields
import ItemMapper.Wire.Tag

/-!
# Stored values

Numbers are stored as decimal text, so that they keep their precision.  An item is a list of
stored values by attribute name.
-/

namespace ItemMapper

inductive WireValue where
  | string (text : String)
  | number (text : String)
  | binary (bytes : List UInt8)
  | stringSet (members : List String)
  | numberSet (members : List String)
  | binarySet (members : List (List UInt8))
  | boolean (value : Bool)
  | null (value : Bool)
  | list (items : List WireValue)
  | map (fields : List (String × WireValue))

/-- A stored item: attribute names with stored values. -/
abbrev Item := Fields WireValue

namespace WireValue

def wireType : WireValue → WireType
  | .string _ => .string
  | .number _ => .number
  | .binary _ => .binary
  | .stringSet _ => .stringSet
  | .numberSet _ => .numberSet
  | .binarySet _ => .binarySet
  | .boolean _ => .boolean
  | .null _ => .null
  | .list _ => .list
  | .map _ => .map

def typeName (value : WireValue) : String := value.wireType.typeName

/-- A list, map or set without content. -/
def isEmptyContainer : WireValue → Bool
  | .list items => items.isEmpty
  | .map fields => fields.isEmpty
  | .stringSet members | .numberSet members => members.isEmpty
  | .binarySet members => members.isEmpty
  | _ => false

/-- A map, which may be an item of its own. -/
def isDocument : WireValue → Bool
  | .map _ => true
  | _ => false

def string? : WireValue → Option String
  | .string text => some text
  | _ => none

def number? : WireValue → Option String
  | .number text => some text
  | _ => none

def map? : WireValue → Option Item
  | .map fields => some fields
  | _ => none

def list? : WireValue → Option (List WireValue)
  | .list items => some items
  | _ => none

/-! ### Equality -/

mutual

def beq : WireValue → WireValue → Bool
  | .string a, .string b => a == b
  | .number a, .number b => a == b
  | .binary a, .binary b => a == b
  | .stringSet a, .stringSet b => a == b
  | .numberSet a, .numberSet b => a == b
  | .binarySet a, .binarySet b => a == b
  | .boolean a, .boolean b => a == b
  | .null a, .null b => a == b
  | .list a, .list b => beqItems a b
  | .map a, .map b => beqFields a b
  | _, _ => false

def beqItems : List WireValue → List WireValue → Bool
  | [], [] => true
  | a :: as, b :: bs => beq a b && beqItems as bs
  | _, _ => false

def beqFields : List (String × WireValue) → List (String × WireValue) → Bool
  | [], [] => true
  | (k, a) :: as, (l, b) :: bs => k == l && beq a b && beqFields as bs
  | _, _ => false

end

instance : BEq WireValue := ⟨beq⟩

mutual

theorem eq_of_beq : ∀ {a b : WireValue}, beq a b = true → a = b
  | .list as, b, h => by
    cases b with
    | list bs =>
      have : as = bs := eq_of_beqItems (by simpa [beq] using h)
      rw [this]
    | _ => simp [beq] at h
  | .map as, b, h => by
    cases b with
    | map bs =>
      have : as = bs := eq_of_beqFields (by simpa [beq] using h)
      rw [this]
    | _ => simp [beq] at h
  | .string _, b, h => by cases b <;> simp_all [beq]
  | .number _, b, h => by cases b <;> simp_all [beq]
  | .binary _, b, h => by cases b <;> simp_all [beq]
  | .stringSet _, b, h => by cases b <;> simp_all [beq]
  | .numberSet _, b, h => by cases b <;> simp_all [beq]
  | .binarySet _, b, h => by cases b <;> simp_all [beq]
  | .boolean _, b, h => by cases b <;> simp_all [beq]
  | .null _, b, h => by cases b <;> simp_all [beq]

theorem eq_of_beqItems : ∀ {as bs : List WireValue}, beqItems as bs = true → as = bs
  | [], [], _ => rfl
  | a :: as, b :: bs, h => by
    simp only [beqItems, Bool.and_eq_true] at h
    rw [eq_of_beq h.1, eq_of_beqItems h.2]
  | [], _ :: _, h => by simp [beqItems] at h
  | _ :: _, [], h => by simp [beqItems] at h

theorem eq_of_beqFields : ∀ {as bs : List (String × WireValue)}, beqFields as bs = true → as = bs
  | [], [], _ => rfl
  | (k, a) :: as, (l, b) :: bs, h => by
    simp only [beqFields, Bool.and_eq_true, beq_iff_eq] at h
    rw [h.1.1, eq_of_beq h.1.2, eq_of_beqFields h.2]
  | [], _ :: _, h => by simp [beqFields] at h
  | _ :: _, [], h => by simp [beqFields] at h

end

mutual

theorem beq_refl : ∀ a : WireValue, beq a a = true
  | .list a => by simpa [beq] using beqItems_refl a
  | .map a => by simpa [beq] using beqFields_refl a
  | .string _ => by simp [beq]
  | .number _ => by simp [beq]
  | .binary _ => by simp [beq]
  | .stringSet _ => by simp [beq]
  | .numberSet _ => by simp [beq]
  | .binarySet _ => by simp [beq]
  | .boolean _ => by simp [beq]
  | .null _ => by simp [beq]

theorem beqItems_refl : ∀ as : List WireValue, beqItems as as = true
  | [] => rfl
  | a :: as => by simp [beqItems, beq_refl a, beqItems_refl as]

theorem beqFields_refl : ∀ as : List (String × WireValue), beqFields as as = true
  | [] => rfl
  | (k, a) :: as => by simp [beqFields, beq_refl a, beqFields_refl as]

end

instance : LawfulBEq WireValue where
  eq_of_beq := eq_of_beq
  rfl := beq_refl _

instance : DecidableEq WireValue := fun a b =>
  if h : beq a b = true then isTrue (eq_of_beq h)
  else isFalse fun heq => h (heq ▸ beq_refl a)

/-! ### Well-formed values -/

mutual

/-- The fields of every map, at every depth, have each key once and in order. -/
def WellFormed : WireValue → Prop
  | .list items => AllWellFormed items
  | .map fields => Fields.Sorted fields ∧ FieldsWellFormed fields
  | _ => True

def AllWellFormed : List WireValue → Prop
  | [] => True
  | item :: rest => WellFormed item ∧ AllWellFormed rest

def FieldsWellFormed : List (String × WireValue) → Prop
  | [] => True
  | (_, value) :: rest => WellFormed value ∧ FieldsWellFormed rest

end

end WireValue

end ItemMapper
