import ItemMapper.Coding.Natural
import ItemMapper.Proofs.Number.Decimal
import ItemMapper.Proofs.Pipeline

/-!
# Equal values are stored alike

Values are compared by `Value.equal`, for which the two zeros are the same.
`Value.natural?_eq_of_equal` says that equal values have the same natural form all the same: the two
zeros have the same text, and where they stand for dates they are the same date.
-/

namespace ItemMapper

namespace Binary64

theorem text_zero (negative : Bool) : (zero negative).text = "0" := by
  cases negative <;> decide +kernel

theorem roundToInt64_zero (negative : Bool) : (zero negative).roundToInt64 = 0 := by
  cases negative <;> decide +kernel

theorem text_eq_of_equal {x y : Binary64} (hequal : x.equal y = true) : x.text = y.text := by
  rcases eq_or_zero_of_equal hequal with rfl | ⟨negative, negative', rfl, rfl⟩
  · rfl
  · rw [text_zero, text_zero]

theorem isFinite_eq_of_equal {x y : Binary64} (hequal : x.equal y = true) :
    x.isFinite = y.isFinite := by
  rcases eq_or_zero_of_equal hequal with rfl | ⟨_, _, rfl, rfl⟩ <;> rfl

theorem roundToInt64_eq_of_equal {x y : Binary64} (hequal : x.equal y = true) :
    x.roundToInt64 = y.roundToInt64 := by
  rcases eq_or_zero_of_equal hequal with rfl | ⟨negative, negative', rfl, rfl⟩
  · rfl
  · rw [roundToInt64_zero, roundToInt64_zero]

end Binary64

theorem Instant.ofNumber?_eq_of_equal {x y : Binary64} (hequal : x.equal y = true) :
    ofNumber? x = ofNumber? y := by
  rw [ofNumber?, ofNumber?, Binary64.roundToInt64_eq_of_equal hequal]

namespace Value

theorem date?_eq_of_equal {a b : Value} (hequal : a.equal b = true) : a.date? = b.date? := by
  cases a with
  | number x =>
      cases b with
      | number y =>
          rw [date?, date?, Binary64.isFinite_eq_of_equal hequal,
            Instant.ofNumber?_eq_of_equal hequal]
      | _ => simp [equal] at hequal
  | date t => cases b <;> simp_all [equal, date?]
  | _ => cases b <;> simp_all [equal, date?]

end Value

namespace SetElement

theorem ofFirst_eq_of_equal {a b : Value} (hequal : a.equal b = true) : ofFirst a = ofFirst b := by
  cases a <;> cases b <;> simp_all [Value.equal, ofFirst]

/-- Equal values are the same member of a set. -/
theorem member?_eq_of_equal (element : SetElement) {a b : Value} (hequal : a.equal b = true) :
    element.member? a = element.member? b := by
  cases element with
  | date storage => rw [member?, member?, Value.date?_eq_of_equal hequal]
  | number =>
      cases a with
      | number x =>
          cases b with
          | number y => rw [member?, member?, Binary64.text_eq_of_equal hequal]
          | _ => simp [Value.equal] at hequal
      | _ => cases b <;> simp_all [Value.equal, member?]
  | _ => cases a <;> cases b <;> simp_all [Value.equal, member?]

theorem members_eq_of_equal (element : SetElement) :
    ∀ {as bs : List Value}, Value.equalItems as bs = true →
      (element.members as).toOption = (element.members bs).toOption
  | [], [], _ => rfl
  | a :: as, b :: bs, hequal => by
      simp only [Value.equalItems, Bool.and_eq_true] at hequal
      have hrest := members_eq_of_equal element hequal.2
      rw [members, members, member?_eq_of_equal element hequal.1]
      cases element.member? b with
      | none => rfl
      | some member =>
          cases hfirst : element.members as <;> cases hsecond : element.members bs <;>
            simp_all [Except.toOption, Except.map]
  | [], _ :: _, hequal => by simp [Value.equalItems] at hequal
  | _ :: _, [], hequal => by simp [Value.equalItems] at hequal

end SetElement

namespace Value

mutual

/-- Equal values have the same natural form. -/
theorem natural?_eq_of_equal : ∀ {a b : Value}, a.equal b = true → a.natural? = b.natural?
  | .list as, b, hequal => by
      cases b with
      | list bs => rw [natural?, natural?, naturalItems_eq_of_equal (by simpa [equal] using hequal)]
      | _ => simp [equal] at hequal
  | .map as, b, hequal => by
      cases b with
      | map bs => rw [natural?, natural?, naturalFields_eq_of_equal (by simpa [equal] using hequal)]
      | _ => simp [equal] at hequal
  | .set [], b, hequal => by
      cases b with
      | set bs => cases bs <;> simp_all [equal, equalItems]
      | _ => simp [equal] at hequal
  | .set (a :: as), b, hequal => by
      cases b with
      | set bs =>
          cases bs with
          | nil => simp [equal, equalItems] at hequal
          | cons b bs =>
              have hitems : equalItems (a :: as) (b :: bs) = true := hequal
              have hmembers := SetElement.members_eq_of_equal (SetElement.ofFirst b) hitems
              simp only [equalItems, Bool.and_eq_true] at hitems
              rw [natural?, natural?, SetElement.ofFirst_eq_of_equal hitems.1]
              unfold SetElement.encode
              cases hfirst : (SetElement.ofFirst b).members (a :: as) <;>
                cases hsecond : (SetElement.ofFirst b).members (b :: bs) <;>
                simp_all [Except.toOption, Except.map]
      | _ => simp [equal] at hequal
  | .number x, b, hequal => by
      cases b with
      | number y => rw [natural?, natural?, Binary64.text_eq_of_equal hequal]
      | _ => simp [equal] at hequal
  | .undefined, b, hequal => by cases b <;> simp_all [equal]
  | .null, b, hequal => by cases b <;> simp_all [equal]
  | .bool _, b, hequal => by cases b <;> simp_all [equal]
  | .string _, b, hequal => by cases b <;> simp_all [equal]
  | .binary _, b, hequal => by cases b <;> simp_all [equal]
  | .date _, b, hequal => by cases b <;> simp_all [equal]

theorem naturalItems_eq_of_equal :
    ∀ {as bs : List Value}, equalItems as bs = true → naturalItems as = naturalItems bs
  | [], [], _ => rfl
  | a :: as, b :: bs, hequal => by
      simp only [equalItems, Bool.and_eq_true] at hequal
      rw [naturalItems, naturalItems, natural?_eq_of_equal hequal.1,
        naturalItems_eq_of_equal hequal.2]
  | [], _ :: _, hequal => by simp [equalItems] at hequal
  | _ :: _, [], hequal => by simp [equalItems] at hequal

theorem naturalFields_eq_of_equal :
    ∀ {as bs : List (String × Value)}, equalFields as bs = true →
      naturalFields as = naturalFields bs
  | [], [], _ => rfl
  | (key, a) :: as, (key', b) :: bs, hequal => by
      simp only [equalFields, Bool.and_eq_true, beq_iff_eq] at hequal
      rw [naturalFields, naturalFields, hequal.1.1, natural?_eq_of_equal hequal.1.2,
        naturalFields_eq_of_equal hequal.2]
  | [], _ :: _, hequal => by simp [equalFields] at hequal
  | _ :: _, [], hequal => by simp [equalFields] at hequal

end

end Value

end ItemMapper
