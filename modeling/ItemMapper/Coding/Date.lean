import ItemMapper.Instant.Text
import ItemMapper.Schema
import ItemMapper.Wire.Value

/-!
# Stored dates

A date is stored as a number of milliseconds, as a number of whole seconds, or as text.  Numbers
are read in binary floating point and rounded to the millisecond.
-/

namespace ItemMapper

def WireValue.ofDate (instant : Instant) : DateStorage → WireValue
  | .milliseconds => .number (toString instant.millis)
  | .seconds => .number (toString instant.seconds)
  | .iso => .string instant.isoText

/-- The date that a stored value is in the given storage. -/
def WireValue.date? (storage : DateStorage) (value : WireValue) : Option Instant :=
  match storage, value with
  | .milliseconds, .number text => (Decimal.parse? text).bind Instant.ofNumber?
  | .seconds, .number text =>
    (Decimal.parse? text).bind fun seconds => Instant.ofNumber? (seconds.mulNat 1000)
  | .iso, .string text => Instant.parse? text
  | _, _ => none

end ItemMapper
