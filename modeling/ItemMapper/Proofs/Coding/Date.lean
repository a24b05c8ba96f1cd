import ItemMapper.Coding.Date
import ItemMapper.Proofs.Instant.Text
import ItemMapper.Proofs.Number.Nearest

/-!
# Stored dates are read back

`WireValue.date?_ofDate`: a date that its storage can hold is read back from its stored form.
Otherwise another date may be read, but one with the same stored form
(`WireValue.ofDate_of_date?`).

Dates in milliseconds or seconds pass through binary floating point.  This is exact because every
date has fewer than `2 ^ 53` milliseconds: the integer that is written is a number of the format
(`Represents`), and so is the product with a thousand.
-/

namespace ItemMapper

/-! ## Integers of the format -/

namespace Binary64

open Decimal

/-- The number is this integer. -/
def Represents (x : Binary64) (n : Int) : Prop :=
  ∃ mantissa scale, ∃ h : Canonical mantissa scale,
    x = .finite (decide (n < 0)) mantissa scale h ∧ mantissa * 2 ^ scale = n.natAbs * one

/-- The text of a short integer is read as this integer. -/
theorem exists_parse?_toString {n : Int} (hshort : n.natAbs < 2 ^ 53) :
    ∃ x, parse? (toString n) = some x ∧ x.Represents n := by
  obtain ⟨mantissa, scale, h, hvalue⟩ := exists_canonical_natural hshort
  refine ⟨_, parse?_toString n, mantissa, scale, h, ?_, hvalue.symm⟩
  rcases Nat.eq_zero_or_pos n.natAbs with hzero | hpos
  -- zero has no digits to be counted
  · rw [hzero, Nat.zero_mul] at hvalue
    have hcanonical : Canonical 0 0 := ⟨by decide, by decide, .inl rfl⟩
    obtain ⟨rfl, rfl⟩ := canonical_unique h hcanonical (by rw [← hvalue, Nat.zero_mul])
    simp [hzero, toBinary64, zero]
  · refine toBinary64_natural hpos ?_ h hvalue
    calc n.natAbs < power 16 := hshort.trans (by decide)
      _ ≤ power 400 := power_mono (by decide)

namespace Represents

variable {x : Binary64} {n : Int}

theorem mulNat (hx : x.Represents n) {factor : Nat} (hpos : 0 < factor)
    (hshort : n.natAbs * factor < 2 ^ 53) : (x.mulNat factor).Represents (n * factor) := by
  obtain ⟨mantissa, scale, h, rfl, hvalue⟩ := hx
  obtain ⟨mantissa', scale', h', hvalue'⟩ := exists_canonical_natural hshort
  have hsign : decide (n * (factor : Int) < 0) = decide (n < 0) := by
    have hfactor : (0 : Int) < factor := by exact_mod_cast hpos
    simp only [mul_neg_iff, decide_eq_decide]
    omega
  have hmagnitude : (n * (factor : Int)).natAbs = n.natAbs * factor := by
    rw [Int.natAbs_mul, Int.natAbs_natCast]
  refine ⟨mantissa', scale', h', ?_, by rw [hmagnitude, hvalue']⟩
  rw [hsign, Binary64.mulNat, Nat.shiftLeft_eq, hvalue]
  refine ofRatio_of_eq _ h' one_pos ?_
  rw [← hvalue']
  ring

/-- Rounding to an integer leaves an integer as it is. -/
theorem roundToInt64 (hx : x.Represents n) (hshort : n.natAbs < 2 ^ 53) : x.roundToInt64 = n := by
  obtain ⟨mantissa, scale, h, rfl, hvalue⟩ := hx
  have hmagnitude : (2 * (n.natAbs * one) + one) / (2 * one) = n.natAbs := by
    have hsplit : 2 * (n.natAbs * one) + one = one + n.natAbs * (2 * one) := by ring
    have hpos := one_pos
    rw [hsplit, Nat.add_mul_div_right _ _ (by omega), Nat.div_eq_of_lt (by omega), Nat.zero_add]
  have hsigned : (if decide (n < 0) = true then -(n.natAbs : Int) else n.natAbs) = n := by
    rcases Int.lt_or_le n 0 with hneg | hnonneg
    · rw [if_pos (by simpa using hneg)]
      omega
    · rw [if_neg (by simpa using hnonneg)]
      omega
  rw [Binary64.roundToInt64, Nat.shiftLeft_eq, hvalue, hmagnitude, hsigned, clampInt64, leastInt64,
    greatestInt64, if_neg (by omega), if_neg (by omega)]

end Represents

end Binary64

/-! ## Dates that a storage can hold -/

namespace Instant

variable {t : Instant}

/-- Nothing of the date is lost in its stored form: it has whole milliseconds and is no leap second,
and where it is stored in seconds or as text it has whole seconds or a year of four digits. -/
def FitsStorage (t : Instant) : DateStorage → Prop
  | .milliseconds => t.nanos % 1000000 = 0 ∧ t.nanos < 1000000000
  | .seconds => t.nanos = 0
  | .iso => t.Writable

theorem millis_lt (t : Instant) : t.millis.natAbs < 2 ^ 53 := by
  obtain ⟨⟨hfirst, hlast⟩, hnanos⟩ := t.valid
  unfold firstSecond at hfirst
  unfold lastSecond at hlast
  unfold millis
  omega

theorem ofMillis?_millis (hmillis : t.nanos % 1000000 = 0) (hnoLeap : t.nanos < 1000000000) :
    ofMillis? t.millis = some t := by
  have hseconds : t.millis / 1000 = t.seconds := by
    unfold millis
    omega
  have hnanos : (t.millis % 1000).toNat * 1000000 = t.nanos := by
    unfold millis
    omega
  rw [ofMillis?, hseconds, hnanos, ofParts?_self]

theorem ofNumber?_of_represents {x : Binary64} (hx : x.Represents t.millis)
    (hmillis : t.nanos % 1000000 = 0) (hnoLeap : t.nanos < 1000000000) :
    ofNumber? x = some t := by
  rw [ofNumber?, hx.roundToInt64 t.millis_lt, ofMillis?_millis hmillis hnoLeap]

/-- What a number of milliseconds is as a date. -/
theorem of_ofMillis? {millis : Int} {t : Instant} (ht : ofMillis? millis = some t) :
    t.seconds = millis / 1000 ∧ t.nanos = (millis % 1000).toNat * 1000000 := by
  rw [ofMillis?, ofParts?] at ht
  split at ht
  · obtain rfl := Option.some.inj ht
    exact ⟨rfl, rfl⟩
  · cases ht

end Instant

/-- A date is read back from its stored form. -/
theorem WireValue.date?_ofDate {t : Instant} {storage : DateStorage} (ht : t.FitsStorage storage) :
    (WireValue.ofDate t storage).date? storage = some t := by
  cases storage with
  | milliseconds =>
      obtain ⟨x, hparse, hx⟩ := Binary64.exists_parse?_toString t.millis_lt
      simp only [WireValue.ofDate, WireValue.date?, hparse, Option.bind_some]
      exact Instant.ofNumber?_of_represents hx ht.1 ht.2
  | seconds =>
      have hzero : t.nanos = 0 := ht
      have hnoLeap : t.nanos < 1000000000 := by omega
      have hmillis : t.seconds * (1000 : Nat) = t.millis := by
        unfold Instant.millis
        omega
      have hshort := t.millis_lt
      obtain ⟨x, hparse, hx⟩ := Binary64.exists_parse?_toString (n := t.seconds) (by omega)
      -- the seconds are multiplied in floating point, which is exact as well
      have hproduct := hx.mulNat (show 0 < 1000 by decide) (by omega)
      rw [hmillis] at hproduct
      simp only [WireValue.ofDate, WireValue.date?, hparse, Option.bind_some]
      exact Instant.ofNumber?_of_represents hproduct (by omega) hnoLeap
  | iso => exact Instant.parse?_isoText ht

/-- A date that is read from the stored form of another one has the same stored form. -/
theorem WireValue.ofDate_of_date? {t u : Instant} {storage : DateStorage}
    (hread : (WireValue.ofDate t storage).date? storage = some u) :
    WireValue.ofDate u storage = WireValue.ofDate t storage := by
  have hshort := t.millis_lt
  cases storage with
  | milliseconds =>
      obtain ⟨x, hparse, hx⟩ := Binary64.exists_parse?_toString hshort
      simp only [WireValue.ofDate, WireValue.date?, hparse, Option.bind_some, Instant.ofNumber?,
        hx.roundToInt64 hshort] at hread
      obtain ⟨hseconds, hnanos⟩ := Instant.of_ofMillis? hread
      have hsame : u.millis = t.millis := by
        rw [Instant.millis, hseconds, hnanos]
        omega
      rw [WireValue.ofDate, hsame, WireValue.ofDate]
  | seconds =>
      have hseconds : (t.seconds * (1000 : Nat)).natAbs < 2 ^ 53 := by
        obtain ⟨⟨hfirst, hlast⟩, -⟩ := t.valid
        unfold Instant.firstSecond at hfirst
        unfold Instant.lastSecond at hlast
        omega
      obtain ⟨x, hparse, hx⟩ := Binary64.exists_parse?_toString (n := t.seconds) (by omega)
      have hproduct := hx.mulNat (show 0 < 1000 by decide) (by omega)
      simp only [WireValue.ofDate, WireValue.date?, hparse, Option.bind_some, Instant.ofNumber?,
        hproduct.roundToInt64 hseconds] at hread
      have hsame : u.seconds = t.seconds := by
        rw [(Instant.of_ofMillis? hread).1]
        omega
      rw [WireValue.ofDate, hsame, WireValue.ofDate]
  | iso =>
      have htext := Instant.isoText_of_parse? hread
      rw [WireValue.ofDate, htext, WireValue.ofDate]

end ItemMapper
