import ItemMapper.Instant.Text
import ItemMapper.Proofs.Instant.Calendar
import ItemMapper.Proofs.Number.Decimal

/-!
# Dates are read back from their text

`parse?_isoText_of_fourDigits`: the stored text of a date is read as that date, if it has whole
milliseconds and lies in one of the years that are written with four digits.  Other years are not
read at all, so that whatever is read from the text of a date has this text again
(`isoText_of_parse?`).

Each field of the text has a fixed number of digits, so reading takes them off one after another
(`readNumber?_padded`).  The calendar gives back the day, and the second of the day is the sum of
its hours, minutes and seconds.
-/

namespace ItemMapper.Instant

open Decimal

/-! ## Fields of a fixed width -/

theorem length_padded {width n : Nat} (hwidth : 0 < width) (hfits : n < power width) :
    (padded width n).length = width := by
  have hlength : (Nat.toDigits 10 n).length ≤ width :=
    (Nat.length_toDigits_le_iff (by decide) hwidth).mpr hfits
  rw [padded, List.length_append, List.length_replicate, Nat.sub_add_cancel hlength]

theorem isDigit_padded (width n : Nat) : ∀ c ∈ padded width n, c.isDigit = true := by
  intro c hc
  rcases List.mem_append.mp hc with hzero | hdigit
  · rw [List.eq_of_mem_replicate hzero]
    rfl
  · exact isDigit_toDigits c hdigit

theorem ofDigits_padded (width n : Nat) : ofDigits (padded width n) = n := by
  rw [padded, ofDigits_zeros_append, ofDigits_toDigits]

/-- A number is read with its leading zeros. -/
theorem readNumber?_padded {width n : Nat} (hwidth : 0 < width) (hfits : n < power width)
    (rest : List Char) : readNumber? width (padded width n ++ rest) = some (n, rest) := by
  have hlength := length_padded hwidth hfits
  have hdigits : (padded width n).all Char.isDigit = true :=
    List.all_eq_true.mpr (isDigit_padded width n)
  rw [readNumber?, List.take_left' hlength, List.drop_left' hlength, ofDigits_padded]
  simp [hlength, hdigits]

theorem readMark?_cons {marks : List Char} {mark : Char} (hmark : mark ∈ marks)
    (rest : List Char) : readMark? marks (mark :: rest) = some rest :=
  if_pos hmark

/-- Three places of a fraction are milliseconds. -/
theorem readFraction?_millis {n : Nat} (hfits : n < 1000) :
    readFraction? ('.' :: (padded 3 n ++ ['Z'])) = some (n * 1000000, ['Z']) := by
  have hlength : (padded 3 n).length = 3 := length_padded (by decide) hfits
  have hspan : spanDigits (padded 3 n ++ ['Z']) = (padded 3 n, ['Z']) :=
    spanDigits_append (isDigit_padded 3 n) (by simp)
  have hne : padded 3 n ≠ [] := List.ne_nil_of_length_eq_add_one hlength
  have htake : (padded 3 n).take 9 = padded 3 n := List.take_of_length_le (by omega)
  simp only [readFraction?, hspan, hne, htake, ofDigits_padded, hlength, if_false]
  rfl

/-! ## The whole text -/

/-- A date that is written with four digits for the year and three for the fraction. -/
structure Writable (t : Instant) : Prop where
  millis : t.nanos % 1000000 = 0
  noLeap : t.nanos < 1000000000
  year : 0 ≤ (Calendar.ofDays (t.seconds / 86400)).year ∧
    (Calendar.ofDays (t.seconds / 86400)).year ≤ 9999

theorem ofParts?_self (t : Instant) : ofParts? t.seconds t.nanos = some t :=
  dif_pos t.valid

/-- The stored text, field by field.  A leap second is shown as the sixtieth one. -/
theorem toList_isoText {t : Instant} {day : Calendar.Day} {second shown : Nat}
    (hday : Calendar.ofDays (t.seconds / 86400) = day)
    (hsecond : (t.seconds % 86400).toNat = second) (hyear : 0 ≤ day.year ∧ day.year ≤ 9999)
    (hshown : (second % 60 + if 1000000000 ≤ t.nanos then 1 else 0) = shown) :
    t.isoText.toList = padded 4 day.year.toNat ++ ('-' :: (padded 2 day.month ++ ('-' ::
      (padded 2 day.day ++ ('T' :: (padded 2 (second / 3600) ++ (':' ::
        (padded 2 (second / 60 % 60) ++ (':' :: (padded 2 shown ++
          ('.' :: (padded 3 (t.nanos % 1000000000 / 1000000) ++ ['Z'])))))))))))) := by
  have hyearText : yearText day.year = padded 4 day.year.toNat := if_pos (by simpa using hyear)
  rw [isoText, String.toList_ofList, secondsText, hday, hsecond, hyearText]
  simp [hshown]

/-- The stored text of a date in a year of four digits is read as that date, also that of a leap
second. -/
theorem parse?_isoText_of_fourDigits {t : Instant} (hmillis : t.nanos % 1000000 = 0)
    (hyear : 0 ≤ (Calendar.ofDays (t.seconds / 86400)).year ∧
      (Calendar.ofDays (t.seconds / 86400)).year ≤ 9999) : parse? t.isoText = some t := by
  obtain ⟨day, hday⟩ : ∃ day, Calendar.ofDays (t.seconds / 86400) = day := ⟨_, rfl⟩
  obtain ⟨second, hsecond⟩ : ∃ second, (t.seconds % 86400).toNat = second := ⟨_, rfl⟩
  obtain ⟨shown, hshown⟩ : ∃ shown,
    (second % 60 + if 1000000000 ≤ t.nanos then 1 else 0) = shown := ⟨_, rfl⟩
  have hvalid := Calendar.day?_ofDays (t.seconds / 86400)
  have hcount := Calendar.toDays_ofDays (t.seconds / 86400)
  rw [hday] at hyear hvalid hcount
  obtain ⟨hmonth, hdayOfMonth⟩ := Calendar.le_of_day? hvalid
  have hyearBack : ((day.year.toNat : Nat) : Int) = day.year := Int.toNat_of_nonneg hyear.1
  obtain ⟨-, hnanos⟩ := t.valid
  have hlast : t.seconds % 60 = (second % 60 : Nat) := by omega
  have hfraction : t.nanos % 1000000000 / 1000000 * 1000000 = t.nanos % 1000000000 := by omega
  -- the sixtieth second is a leap second, and no other one is
  have hleap : shown = 60 ↔ 1000000000 ≤ t.nanos := by
    rw [← hshown]
    split <;> omega
  have hnanosBack : (if shown = 60 then t.nanos % 1000000000 + 1000000000
      else t.nanos % 1000000000) = t.nanos := by
    simp only [hleap]
    split <;> omega
  have hseconds : Calendar.toDays day * 86400 + (((second / 3600 : Nat) * 60 +
      (second / 60 % 60 : Nat)) * 60 + (if shown = 60 then 59 else shown : Nat)) - 0 =
        t.seconds := by
    rw [hcount]
    simp only [hleap]
    split
    · omega
    · next hnone =>
        rw [if_neg hnone] at hshown
        omega
  have hbound : shown ≤ 60 := by
    rw [← hshown]
    split <;> omega
  -- no field has more digits than its width
  have hpower2 : power 2 = 100 := rfl
  have hpower4 : power 4 = 10000 := rfl
  have hreadYear := @readNumber?_padded 4 day.year.toNat (by decide) (by omega)
  have hreadMonth := @readNumber?_padded 2 day.month (by decide) (by omega)
  have hreadDay := @readNumber?_padded 2 day.day (by decide) (by omega)
  have hreadHour := @readNumber?_padded 2 (second / 3600) (by decide) (by omega)
  have hreadMinute := @readNumber?_padded 2 (second / 60 % 60) (by decide) (by omega)
  have hreadSecond := @readNumber?_padded 2 shown (by decide) (by omega)
  have hreadFraction := @readFraction?_millis (t.nanos % 1000000000 / 1000000) (by omega)
  have hhour : second / 3600 ≤ 23 := by omega
  have hminute : second / 60 % 60 ≤ 59 := by omega
  -- each field is taken off the front, and the mark behind it
  unfold parse?
  rw [toList_isoText hday hsecond hyear hshown]
  refine Option.bind_eq_some_iff.mpr ⟨_, hreadYear _, ?_⟩
  refine Option.bind_eq_some_iff.mpr ⟨_, readMark?_cons (by simp) _, ?_⟩
  refine Option.bind_eq_some_iff.mpr ⟨_, hreadMonth _, ?_⟩
  refine Option.bind_eq_some_iff.mpr ⟨_, readMark?_cons (by simp) _, ?_⟩
  refine Option.bind_eq_some_iff.mpr ⟨_, hreadDay _, ?_⟩
  refine Option.bind_eq_some_iff.mpr ⟨_, readMark?_cons (by simp) _, ?_⟩
  refine Option.bind_eq_some_iff.mpr ⟨_, hreadHour _, ?_⟩
  refine Option.bind_eq_some_iff.mpr ⟨_, readMark?_cons (by simp) _, ?_⟩
  refine Option.bind_eq_some_iff.mpr ⟨_, hreadMinute _, ?_⟩
  refine Option.bind_eq_some_iff.mpr ⟨_, readMark?_cons (by simp) _, ?_⟩
  refine Option.bind_eq_some_iff.mpr ⟨_, hreadSecond _, ?_⟩
  refine Option.bind_eq_some_iff.mpr ⟨_, hreadFraction, ?_⟩
  refine Option.bind_eq_some_iff.mpr ⟨0, rfl, ?_⟩
  refine Option.bind_eq_some_iff.mpr ⟨day, ?_, ?_⟩
  · rw [hyearBack]
    exact hvalid
  · rw [if_pos (by simp [hhour, hminute, hbound])]
    simp only [hfraction, hnanosBack]
    rw [hseconds]
    exact ofParts?_self t

/-- The stored text of a date is read as that date. -/
theorem parse?_isoText {t : Instant} (ht : t.Writable) : parse? t.isoText = some t :=
  parse?_isoText_of_fourDigits ht.millis ht.year

/-- A year that has no four digits begins with a sign. -/
theorem exists_sign_yearText {year : Int} (hyear : ¬ (0 ≤ year ∧ year ≤ 9999)) :
    ∃ sign digits, yearText year = sign :: digits ∧ sign.isDigit = false := by
  rw [yearText, if_neg (by simpa using hyear)]
  refine ⟨_, _, rfl, ?_⟩
  split <;> rfl

/-- Reading begins with the year. -/
theorem parse?_eq_none {text : String} (hyear : readNumber? 4 text.toList = none) :
    parse? text = none := by
  unfold parse?
  rw [hyear]
  rfl

/-- Such a year is not read. -/
theorem year_of_parse?_isoText {t u : Instant} (hread : parse? t.isoText = some u) :
    0 ≤ (Calendar.ofDays (t.seconds / 86400)).year ∧
      (Calendar.ofDays (t.seconds / 86400)).year ≤ 9999 := by
  by_contra hyear
  obtain ⟨sign, digits, hyearText, hsign⟩ := exists_sign_yearText hyear
  obtain ⟨rest, htext⟩ : ∃ rest, t.isoText.toList = sign :: rest := by
    rw [isoText, String.toList_ofList, secondsText, hyearText]
    simp only [List.cons_append, List.cons.injEq, true_and, exists_eq']
  have hnone : parse? t.isoText = none := parse?_eq_none (by
    rw [htext]
    simp [readNumber?, hsign])
  rw [hnone] at hread
  cases hread

/-- The date without what exceeds a multiple of the unit, in nanoseconds, in its second. -/
def truncated (t : Instant) (unit : Nat) : Instant where
  seconds := t.seconds
  nanos := t.nanos / unit * unit
  valid := by
    obtain ⟨hrange, hnanos⟩ := t.valid
    have hle := Nat.div_mul_le_self t.nanos unit
    exact ⟨hrange, by omega⟩

@[simp]
theorem truncated_seconds (t : Instant) (unit : Nat) : (t.truncated unit).seconds = t.seconds :=
  rfl

@[simp]
theorem truncated_nanos (t : Instant) (unit : Nat) :
    (t.truncated unit).nanos = t.nanos / unit * unit :=
  rfl

/-- The text shows no more than whole milliseconds. -/
theorem isoText_truncated (t : Instant) : (t.truncated 1000000).isoText = t.isoText := by
  have hleap : 1000000000 ≤ t.nanos / 1000000 * 1000000 ↔ 1000000000 ≤ t.nanos := by omega
  have hmillis : t.nanos / 1000000 * 1000000 % 1000000000 / 1000000 =
      t.nanos % 1000000000 / 1000000 := by omega
  simp only [isoText, secondsText, truncated_seconds, truncated_nanos, hleap, hmillis]

/-- A date that is read from the stored text of another one has the same text. -/
theorem isoText_of_parse? {t u : Instant} (hread : parse? t.isoText = some u) :
    u.isoText = t.isoText := by
  have hmillis : (t.truncated 1000000).nanos % 1000000 = 0 := by
    rw [truncated_nanos, Nat.mul_mod_left]
  have hyear := year_of_parse?_isoText hread
  rw [← truncated_seconds t 1000000] at hyear
  have hback := parse?_isoText_of_fourDigits hmillis hyear
  rw [isoText_truncated, hread] at hback
  rw [Option.some.inj hback, isoText_truncated]

end ItemMapper.Instant
