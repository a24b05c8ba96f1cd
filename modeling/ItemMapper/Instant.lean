import ItemMapper.Number.Binary64

/-!
# Points in time

A date is a number of whole seconds since the beginning of 1970 and a number of nanoseconds.  It
lies between the years -262143 and 262142.  A leap second is the last second of a minute with
nanoseconds from one billion on.

A duration is a length of time.  A date and a duration have a sum unless it lies beyond the last date.
-/

namespace ItemMapper

/-- A length of time. -/
structure Duration where
  seconds : Nat
  nanos : Nat
  valid : nanos < 1000000000
deriving DecidableEq, Repr

namespace Duration

/-- A number alone counts seconds. -/
instance (seconds : Nat) : OfNat Duration seconds := ⟨⟨seconds, 0, by decide⟩⟩

instance : Coe Nat Duration := ⟨fun seconds => ⟨seconds, 0, by decide⟩⟩

/-- Where seconds are counted, a duration counts by its whole seconds. -/
instance : CoeOut Duration Nat := ⟨seconds⟩

/-- The length in nanoseconds. -/
def total (duration : Duration) : Nat :=
  duration.seconds * 1000000000 + duration.nanos

end Duration

namespace Instant

/-- The first second of the year -262143. -/
def firstSecond : Int := -8334601228800

/-- The last second of the year 262142. -/
def lastSecond : Int := 8210266876799

/-- The seconds and nanoseconds that make up a date. -/
def Valid (seconds : Int) (nanos : Nat) : Prop :=
  (firstSecond ≤ seconds ∧ seconds ≤ lastSecond) ∧
    (nanos < 1000000000 ∨ (nanos < 2000000000 ∧ seconds % 60 = 59))

instance (seconds : Int) (nanos : Nat) : Decidable (Valid seconds nanos) :=
  inferInstanceAs (Decidable ((_ ∧ _) ∧ (_ ∨ (_ ∧ _))))

end Instant

/-- A point in time with nanosecond precision. -/
structure Instant where
  seconds : Int
  nanos : Nat
  valid : Instant.Valid seconds nanos
deriving DecidableEq

namespace Instant

/-- The date with these seconds and nanoseconds, if there is one. -/
def ofParts? (seconds : Int) (nanos : Nat) : Option Instant :=
  if valid : Valid seconds nanos then some ⟨seconds, nanos, valid⟩ else none

/-- The date that many milliseconds after the beginning of 1970. -/
def ofMillis? (millis : Int) : Option Instant :=
  ofParts? (millis / 1000) ((millis % 1000).toNat * 1000000)

/-- A number as a date: the nearest whole number of milliseconds. -/
def ofNumber? (millis : Binary64) : Option Instant :=
  ofMillis? millis.roundToInt64

/-- The whole milliseconds since the beginning of 1970. -/
def millis (t : Instant) : Int :=
  t.seconds * 1000 + t.nanos / 1000000

def before (t u : Instant) : Bool :=
  t.seconds < u.seconds || (t.seconds == u.seconds && t.nanos < u.nanos)

/-- The second and the nanoseconds of the time that is so much later.  A leap second is left for the
second after it, unless the time stays inside of it. -/
def partsAfter (t : Instant) (duration : Duration) : Int × Nat :=
  if duration.seconds = 0 ∧ 1000000000 ≤ t.nanos ∧ t.nanos + duration.nanos < 2000000000 then
    (t.seconds, t.nanos + duration.nanos)
  else
    let nanos := t.nanos % 1000000000 + duration.nanos
    (t.seconds + duration.seconds + (nanos / 1000000000 : Nat), nanos % 1000000000)

/-- The date that is so much later, unless it lies beyond the last one. -/
def add? (t : Instant) (duration : Duration) : Option Instant :=
  ofParts? (t.partsAfter duration).1 (t.partsAfter duration).2

def epoch : Instant :=
  ⟨0, 0, by decide⟩

instance : Inhabited Instant := ⟨epoch⟩

end Instant

end ItemMapper
