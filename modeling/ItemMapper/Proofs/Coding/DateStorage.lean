import ItemMapper.Proofs.Coding.Date
import ItemMapper.Proofs.Number.Integers

/-!
# What the storage of dates keeps

A stored date is read back rounded down to the unit of its storage, before 1970 as well as after,
unless it is written as text with a year that has no four digits: such a text is not read
(`WireValue.date?_iff`).

The stored form does not show what is rounded off (`WireValue.ofDate_truncated`), so a date is read
back as its truncation, of which nothing is lost.

Where dates are stored as numbers, other numbers are read too: a finite one as the date of the
nearest whole number of milliseconds, and not-a-number as the beginning of 1970.
-/

namespace ItemMapper

/-! ## Rounding down -/

namespace DateStorage

/-- The unit of a storage in nanoseconds. -/
def unit : DateStorage → Nat
  | .seconds => 1000000000
  | .milliseconds | .iso => 1000000

/-- The milliseconds that a stored number counts.  A number of seconds is multiplied in floating
point. -/
def millisOf : DateStorage → Binary64 → Binary64
  | .seconds, x => x.mulNat 1000
  | .milliseconds, x | .iso, x => x

theorem millisOf_eq_nan_iff {storage : DateStorage} {x : Binary64} :
    storage.millisOf x = .nan ↔ x = .nan := by
  cases storage with
  | seconds =>
      cases x with
      | nan | infinite => rfl
      | finite negative mantissa scale h =>
          simp only [millisOf, Binary64.mulNat, Binary64.ofRatio, Binary64.ofParts, reduceCtorEq,
            iff_false]
          split_ifs <;> simp
  | milliseconds | iso => rfl

theorem isFinite_of_millisOf {storage : DateStorage} {x : Binary64}
    (hfinite : (storage.millisOf x).isFinite = true) : x.isFinite = true := by
  cases x with
  | finite => rfl
  | nan => cases storage <;> cases hfinite
  | infinite => cases storage <;> cases hfinite

end DateStorage

namespace Instant

variable {t u : Instant}

/-- The nanoseconds since the beginning of 1970. -/
def total (t : Instant) : Int :=
  t.seconds * 1000000000 + t.nanos

/-- The date `u` is the date `t` rounded down to a multiple of the unit. -/
structure RoundsDownTo (t : Instant) (unit : Nat) (u : Instant) : Prop where
  noLeap : u.nanos < 1000000000
  total : u.total = t.total / unit * unit

/-- The year of the date is one from 0 to 9999. -/
def HasFourDigitYear (t : Instant) : Prop :=
  0 ≤ (Calendar.ofDays (t.seconds / 86400)).year ∧
    (Calendar.ofDays (t.seconds / 86400)).year ≤ 9999

theorem roundsDownTo_truncated (hnoLeap : t.nanos < 1000000000) (storage : DateStorage) :
    t.RoundsDownTo storage.unit (t.truncated storage.unit) := by
  have hle := Nat.div_mul_le_self t.nanos storage.unit
  refine ⟨by rw [truncated_nanos]; omega, ?_⟩
  rw [total, total, truncated_seconds, truncated_nanos]
  cases storage <;> simp only [DateStorage.unit] <;> omega

theorem fitsStorage_truncated {storage : DateStorage} (hnoLeap : t.nanos < 1000000000)
    (hyear : storage = .iso → t.HasFourDigitYear) :
    (t.truncated storage.unit).FitsStorage storage := by
  have hle := Nat.div_mul_le_self t.nanos storage.unit
  have hnanos : (t.truncated storage.unit).nanos < 1000000000 := by
    rw [truncated_nanos]
    omega
  cases storage with
  | milliseconds => exact ⟨by rw [truncated_nanos]; exact Nat.mul_mod_left _ _, hnanos⟩
  | seconds =>
      rw [FitsStorage, truncated_nanos, DateStorage.unit, Nat.div_eq_of_lt hnoLeap, Nat.zero_mul]
  | iso =>
      refine ⟨by rw [truncated_nanos]; exact Nat.mul_mod_left _ _, hnanos, ?_⟩
      rw [truncated_seconds]
      exact hyear rfl

/-! ## Numbers as dates -/

/-- A number of milliseconds is the date with so many of them. -/
theorem ofMillis?_eq_some_iff {millis : Int} :
    ofMillis? millis = some u ↔ u.millis = millis ∧ u.FitsStorage .milliseconds := by
  constructor
  · intro hread
    obtain ⟨hseconds, hnanos⟩ := of_ofMillis? hread
    refine ⟨?_, ?_, ?_⟩
    · unfold Instant.millis
      omega
    · omega
    · omega
  · rintro ⟨rfl, hmillis, hnoLeap⟩
    exact ofMillis?_millis hmillis hnoLeap

theorem eq_epoch_of_millis (hmillis : u.millis = 0) (hfits : u.FitsStorage .milliseconds) :
    u = epoch := by
  have hread := ofMillis?_millis hfits.1 hfits.2
  rw [hmillis] at hread
  exact (Option.some.inj hread).symm

/-- A number is read as the date of its nearest integer.  No date lies at an end of the range to
which numbers beyond it, and the infinite ones, are rounded. -/
theorem ofNumber?_eq_some_iff {x : Binary64} :
    ofNumber? x = some u ↔
      u.FitsStorage .milliseconds ∧ (x.RoundsTo u.millis ∨ x = .nan ∧ u = .epoch) := by
  have hshort := u.millis_lt
  have hlower : Binary64.leastInt64 < u.millis := by
    unfold Binary64.leastInt64
    omega
  have hupper : u.millis < Binary64.greatestInt64 := by
    unfold Binary64.greatestInt64
    omega
  rw [ofNumber?, ofMillis?_eq_some_iff, and_comm]
  refine and_congr_right fun hfits => ?_
  constructor
  · intro hmillis
    cases hx : x with
    | nan => exact .inr ⟨rfl, eq_epoch_of_millis (hmillis.trans (by rw [hx]; rfl)) hfits⟩
    | infinite negative =>
        rw [hx, Binary64.roundToInt64] at hmillis
        cases negative <;> simp only [if_true, Bool.false_eq_true, if_false] at hmillis <;> omega
    | finite negative mantissa scale h =>
        obtain ⟨n, hn, hclamp⟩ := Binary64.exists_roundsTo (x := x) (by rw [hx]; rfl)
        rw [hclamp, eq_comm, Binary64.clampInt64_eq_iff hlower hupper] at hmillis
        rw [← hx, ← hmillis]
        exact .inl hn
  · rintro (hround | ⟨rfl, rfl⟩)
    · obtain ⟨n, hn, hclamp⟩ := Binary64.exists_roundsTo hround.finite
      rw [hclamp, eq_comm, Binary64.clampInt64_eq_iff hlower hupper]
      exact hn.unique hround
    · rfl

end Instant

namespace WireValue

/-- What is rounded off does not show in the stored form. -/
theorem ofDate_truncated (t : Instant) (storage : DateStorage) :
    ofDate (t.truncated storage.unit) storage = ofDate t storage := by
  cases storage with
  | milliseconds =>
      have hmillis : (t.truncated 1000000).millis = t.millis := by
        unfold Instant.millis
        rw [Instant.truncated_seconds, Instant.truncated_nanos]
        omega
      rw [ofDate, ofDate, DateStorage.unit, hmillis]
  | seconds => rfl
  | iso => rw [ofDate, ofDate, DateStorage.unit, Instant.isoText_truncated]

theorem date?_number {storage : DateStorage} (hnumber : storage ≠ .iso) (text : String) :
    (WireValue.number text).date? storage =
      (Decimal.parse? text).bind fun x => Instant.ofNumber? (storage.millisOf x) := by
  cases storage with
  | milliseconds | seconds => rfl
  | iso => exact absurd rfl hnumber

/-- A date that is no leap second can be read back from its stored form unless that is a text
without a four-digit year, and it is read back rounded down to the unit of its storage.  Of the texts
of numbers exactly those are read as dates that are finite, with the nearest number of milliseconds
that of a date, and those of not-a-number, which is read as the beginning of 1970. -/
theorem date?_iff {t : Instant} (hnoLeap : t.nanos < 1000000000) (storage : DateStorage) :
    ((∃ read, (ofDate t storage).date? storage = some read) ↔
        (storage = .iso → t.HasFourDigitYear)) ∧
      (∀ read, (ofDate t storage).date? storage = some read →
        t.RoundsDownTo storage.unit read) ∧
      (storage ≠ .iso → ∀ text read, (WireValue.number text).date? storage = some read ↔
        read.FitsStorage .milliseconds ∧ ∃ x, Decimal.parse? text = some x ∧
          (x.isFinite = true ∧ (storage.millisOf x).RoundsTo read.millis ∨
            x = .nan ∧ read = .epoch)) := by
  have htruncated : (storage = .iso → t.HasFourDigitYear) →
      (ofDate t storage).date? storage = some (t.truncated storage.unit) := by
    intro hyear
    rw [← ofDate_truncated]
    exact date?_ofDate (Instant.fitsStorage_truncated hnoLeap hyear)
  have hyear : ∀ {read}, (ofDate t storage).date? storage = some read →
      storage = .iso → t.HasFourDigitYear := by
    rintro read hread rfl
    exact Instant.year_of_parse?_isoText hread
  refine ⟨⟨fun ⟨_, hread⟩ => hyear hread, fun hshort => ⟨_, htruncated hshort⟩⟩, ?_, ?_⟩
  · intro read hread
    obtain rfl := Option.some.inj ((htruncated (hyear hread)).symm.trans hread)
    exact Instant.roundsDownTo_truncated hnoLeap storage
  · intro hnumber text read
    rw [date?_number hnumber, Option.bind_eq_some_iff]
    simp only [Instant.ofNumber?_eq_some_iff, DateStorage.millisOf_eq_nan_iff]
    constructor
    · rintro ⟨x, hparse, hfits, hround | hnan⟩
      · exact ⟨hfits, x, hparse, .inl ⟨DateStorage.isFinite_of_millisOf hround.finite, hround⟩⟩
      · exact ⟨hfits, x, hparse, .inr hnan⟩
    · rintro ⟨hfits, x, hparse, ⟨-, hround⟩ | hnan⟩
      · exact ⟨x, hparse, hfits, .inl hround⟩
      · exact ⟨x, hparse, hfits, .inr hnan⟩

end WireValue

/-! ## The eve of 1970 -/

/-- The last moment before 1970. -/
def Instant.eve : Instant :=
  ⟨-1, 999999999, by decide⟩

/-- It is read back one second, or one millisecond, before the beginning of 1970. -/
theorem WireValue.date?_iff_eve :
    Instant.eve.nanos < 1000000000 ∧
      (∃ read, (ofDate .eve .seconds).date? .seconds = some read ∧ read.total = -1000000000) ∧
      (∃ read, (ofDate .eve .iso).date? .iso = some read ∧ read.total = -1000000) ∧
      ∃ x, Decimal.parse? "-0.5" = some x ∧ x.RoundsTo (-1) := by
  have hnoLeap : Instant.eve.nanos < 1000000000 := by decide
  have hyear : Instant.eve.HasFourDigitYear := by
    unfold Instant.HasFourDigitYear
    decide
  obtain ⟨hseconds, hdown, -⟩ := date?_iff hnoLeap .seconds
  obtain ⟨hiso, hdown', -⟩ := date?_iff hnoLeap .iso
  obtain ⟨-, -, hnumbers⟩ := date?_iff hnoLeap .milliseconds
  obtain ⟨read, hread⟩ := hseconds.mpr nofun
  obtain ⟨read', hread'⟩ := hiso.mpr fun _ => hyear
  refine ⟨hnoLeap, ⟨read, hread, (hdown read hread).total⟩,
    ⟨read', hread', (hdown' read' hread').total⟩, ?_⟩
  have hhalf : (WireValue.number "-0.5").date? .milliseconds =
      some ⟨-1, 999000000, by decide⟩ := by decide +kernel
  obtain ⟨-, x, hparse, ⟨-, hround⟩ | ⟨-, hepoch⟩⟩ := (hnumbers nofun _ _).mp hhalf
  · exact ⟨x, hparse, hround⟩
  · exact absurd hepoch (by decide)

/-- The first moment of the year 10000 is not read back from its text, and a number that is none is
read as the beginning of 1970. -/
theorem WireValue.date?_loses_year :
    (ofDate ⟨253402300800, 0, by decide⟩ .iso).date? .iso = none ∧
      Decimal.parse? "NaN" = some .nan ∧
      (WireValue.number "NaN").date? .milliseconds = some .epoch := by
  refine ⟨by decide, by decide, by decide⟩

end ItemMapper
