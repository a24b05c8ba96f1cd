import ItemMapper.Config
import ItemMapper.Schema.KeepUnknown

/-!
# Options of reading and writing

Each stage of reading and writing can be switched on and off.  There are four usual combinations:
saving a whole item, reading one, converting it without any application function or check, and
writing the new values of an update.
-/

namespace ItemMapper

/-- Which required attributes must have a value. -/
inductive RequiredCheck where
  /-- None of them. -/
  | off
  /-- Those that the document mentions. -/
  | present
  /-- All of them. -/
  | all
deriving DecidableEq, Repr

/-- Which timestamps are set. -/
inductive TimestampMode where
  | off
  /-- The time of creation, unless it is given, and the time of the last update. -/
  | create
  /-- The time of the last update. -/
  | update
deriving DecidableEq, Repr

/-- The stages of reading and writing. -/
structure MarshalOptions where
  /-- Attributes without a value get their default. -/
  defaults : Bool
  /-- Forced defaults replace given values. -/
  forceDefaults : Bool
  /-- Modifiers run. -/
  modifiers : Bool
  /-- Validators run. -/
  validate : Bool
  /-- Required attributes are checked. -/
  required : RequiredCheck
  /-- Values must be among the allowed ones. -/
  enumCheck : Bool
  /-- Combined attributes are computed. -/
  combine : Bool
  /-- A value that fits no type is an error; otherwise it takes its natural form. -/
  typeCheck : Bool
  /-- Timestamps are set. -/
  timestamps : TimestampMode
  /-- Expired items are hidden. -/
  checkExpiry : Bool
deriving DecidableEq, Repr

namespace MarshalOptions

/-- Everything that saving a new item takes. -/
def save : MarshalOptions where
  defaults := true
  forceDefaults := true
  modifiers := true
  validate := true
  required := .all
  enumCheck := true
  combine := true
  typeCheck := true
  timestamps := .create
  checkExpiry := false

/-- Conversion alone. -/
def plain : MarshalOptions where
  defaults := false
  forceDefaults := false
  modifiers := false
  validate := false
  required := .off
  enumCheck := false
  combine := false
  typeCheck := true
  timestamps := .off
  checkExpiry := false

/-- Reading with modifiers and expiry. -/
def read : MarshalOptions :=
  { plain with modifiers := true, checkExpiry := true }

/-- Writing the new values of an update. -/
def update : MarshalOptions :=
  { save with defaults := false, required := .present, timestamps := .update }

/-- The same options with the checks that a configuration sets. -/
def withConfig (options : MarshalOptions) (config : Config) : MarshalOptions :=
  { options with typeCheck := config.typeCheck, checkExpiry := config.checkExpiry }

/-- Saving with the checks that a configuration sets. -/
def ofConfig (config : Config) : MarshalOptions :=
  save.withConfig config

end MarshalOptions

/-- What schemas keep under a configuration unless they say otherwise. -/
def Config.keepUnknown (config : Config) : KeepUnknown :=
  if config.keepUnknownByDefault then .everything else .disabled

end ItemMapper
