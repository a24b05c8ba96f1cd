import ItemMapper.Proofs.Coding.DateStorage
import ItemMapper.Proofs.Forced.Mapper
import ItemMapper.Proofs.Marshal.Failures

/-!
# Times of expiry that come too late

A model that adds the attribute with the time of expiry accepts every lifetime that is a duration.
Durations are far longer than dates are late, so the sum of the time of writing and an accepted
lifetime may lie beyond the last date.  Then the default of the attribute can not be evaluated, and
no document without a time of expiry can be written.

`Mapper.expires_after_lifetime` says when this happens and what is stored otherwise.  A sum is looked
at in seconds and nanoseconds (`Instant.partsAfter`), where only the last date limits it: a reading of
the clock is not before the first date, and lifetimes are not negative.  For dates that are no leap
seconds it is the sum of the nanoseconds since the beginning of 1970.
-/

namespace ItemMapper

variable {σ : Type}

open Pipeline

/-! ## Sums of dates and durations -/

namespace Instant

variable {t u : Instant} {duration : Duration}

/-- The year of the date is one from 1970 to 9999. -/
def IsModern (t : Instant) : Prop :=
  1970 ≤ (Calendar.ofDays (t.seconds / 86400)).year ∧
    (Calendar.ofDays (t.seconds / 86400)).year ≤ 9999

theorem isModern_iff : t.IsModern ↔ 0 ≤ t.seconds ∧ t.seconds ≤ 253402300799 := by
  have hfirst := Calendar.year_ofDays_le_iff (t.seconds / 86400) 1969
  have hlast := Calendar.year_ofDays_le_iff (t.seconds / 86400) 9999
  have hnewYear : Calendar.toDays ⟨1969 + 1, 1, 1⟩ = 0 ∧
      Calendar.toDays ⟨9999 + 1, 1, 1⟩ = 2932897 := by decide
  unfold IsModern
  omega

/-- Only the last date limits a sum. -/
theorem valid_partsAfter_iff (t : Instant) (duration : Duration) :
    Valid (t.partsAfter duration).1 (t.partsAfter duration).2 ↔
      (t.partsAfter duration).1 ≤ lastSecond := by
  obtain ⟨⟨hfirst, hlast⟩, hnanos⟩ := t.valid
  have hduration := duration.valid
  unfold Valid partsAfter firstSecond lastSecond at *
  split
  · dsimp only
    omega
  · dsimp only
    omega

theorem add?_eq_some_iff :
    t.add? duration = some u ↔ t.partsAfter duration = (u.seconds, u.nanos) := by
  unfold add? ofParts?
  split
  · next hvalid =>
      rw [Option.some.injEq]
      constructor
      · rintro rfl
        rfl
      · intro hparts
        cases u
        simp only [hparts]
  · next hinvalid =>
      constructor
      · intro hsome
        cases hsome
      · intro hparts
        rw [hparts] at hinvalid
        exact absurd u.valid hinvalid

theorem exists_add?_iff :
    (∃ u, t.add? duration = some u) ↔ (t.partsAfter duration).1 ≤ lastSecond := by
  rw [← valid_partsAfter_iff]
  constructor
  · rintro ⟨u, hsum⟩
    rw [add?_eq_some_iff.mp hsum]
    exact u.valid
  · intro hvalid
    exact ⟨⟨_, _, hvalid⟩, add?_eq_some_iff.mpr rfl⟩

/-- From a date that is no leap second, nanoseconds are counted on. -/
theorem total_partsAfter (hnoLeap : t.nanos < 1000000000) (duration : Duration) :
    (t.partsAfter duration).1 * 1000000000 + (t.partsAfter duration).2 =
        t.total + duration.total ∧
      (t.partsAfter duration).2 < 1000000000 := by
  unfold partsAfter total Duration.total
  rw [if_neg (by omega)]
  dsimp only
  omega

theorem add?_eq_some_iff_total (hnoLeap : t.nanos < 1000000000) :
    t.add? duration = some u ↔ u.nanos < 1000000000 ∧ u.total = t.total + duration.total := by
  obtain ⟨htotal, hnanos⟩ := total_partsAfter hnoLeap duration
  rw [add?_eq_some_iff, ← htotal, total]
  constructor
  · intro hparts
    rw [hparts] at hnanos ⊢
    exact ⟨hnanos, rfl⟩
  · rintro ⟨hshort, hsame⟩
    exact Prod.ext (by omega) (by omega)

theorem exists_add?_iff_total (hnoLeap : t.nanos < 1000000000) :
    (∃ u, t.add? duration = some u) ↔
      t.total + duration.total < (lastSecond + 1) * 1000000000 := by
  obtain ⟨htotal, hnanos⟩ := total_partsAfter hnoLeap duration
  rw [exists_add?_iff, ← htotal]
  omega

end Instant

/-- The longest duration that can be added to every date of the years up to 9999. -/
def Duration.longestSafe : Duration := 7956864576000

theorem Duration.forall_exists_add?_iff {duration : Duration} :
    (∀ t : Instant, t.IsModern → ∃ u, t.add? duration = some u) ↔
      duration.total ≤ longestSafe.total := by
  have hduration := duration.valid
  simp only [Instant.exists_add?_iff, Instant.isModern_iff]
  have hsafe : longestSafe.total = 7956864576000000000000 := rfl
  rw [hsafe]
  unfold total Instant.partsAfter Instant.lastSecond
  constructor
  · intro hall
    have hlast := hall ⟨253402300799, 999999999, by decide⟩ ⟨by decide, by decide⟩
    rw [if_neg (by simp)] at hlast
    dsimp only at hlast
    omega
  · intro hshort t hmodern
    have hnanos := t.valid.2
    split
    · dsimp only
      omega
    · dsimp only
      omega

/-! ## The added attribute -/

/-- A lifetime is accepted if it is a duration, and the attribute with the time of expiry is added
after those that stamps are recorded in. -/
theorem Model.of_build_added {name : String} {schema : Schema σ} {expiry : Expiry} {model : Model σ}
    (hschema : schema.WellFormed) (hbuild : Model.build name schema (some expiry) = .ok model)
    (hadded : schema.attribute? expiry.name = none) :
    expiry.lifetime.total ≤ Expiry.longestLifetime ∧
      expiry.declaration ∈ model.schema.attributes ∧ ¬ model.schema.Stamps expiry.name := by
  unfold Model.build at hbuild
  simp only [hadded, Option.isSome_none, Bool.false_eq_true, if_false] at hbuild
  split at hbuild
  case isTrue => cases hbuild
  case isFalse hshort =>
    split at hbuild
    case h_2 => cases hbuild
    case h_1 extended hextended =>
      obtain rfl := Except.ok.inj hbuild
      obtain ⟨built, hbuilt, rfl⟩ := SchemaOf.build_of_addAttribute hextended
      have hattributes : built.attributes = schema.attributes ++ [expiry.declaration] :=
        SchemaOf.attributes_of_build hbuilt
      refine ⟨by omega, by simp [hattributes], ?_⟩
      rintro ⟨stamps, hstamps, hrecorded⟩
      obtain ⟨field, hfield, hname⟩ := hschema.stampsDeclared stamps hstamps _ hrecorded
      rw [← hname, hschema.attribute?_name hfield] at hadded
      cases hadded

/-- Nothing is given for an attribute without an alias unless it is given under its name. -/
theorem SchemaOf.get?_normalized_eq_none {schema : Schema σ} (hschema : schema.WellFormed)
    {field : Attribute σ} (hfield : field ∈ schema.attributes) (halias : field.nativeAlias = none)
    {document : Document} (hgiven : document.get? field.name = none) :
    (schema.normalized document).get? field.name = none := by
  rw [Option.eq_none_iff_forall_ne_some]
  intro value hvalue
  obtain ⟨⟨key, given⟩, hmem, hsame⟩ := List.mem_map.mp (Fields.mem_of_get?_ofList hvalue)
  obtain ⟨hstored, rfl⟩ := Prod.mk.inj hsame
  have hkey : key = field.name := by
    cases hnative : schema.nativeAttribute? key with
    | none => simpa [storedName, hnative] using hstored
    | some other =>
        have hother : other.name = field.name := by simpa [storedName, hnative] using hstored
        obtain rfl := hschema.eq_of_name_eq (mem_of_nativeAttribute? hnative) hfield hother
        rcases name_of_nativeAttribute? hnative with hname | hname
        · exact hname
        · simpa [AttributeOf.nativeName, halias] using hname
  exact Fields.get?_eq_none_iff.mp hgiven given (hkey ▸ hmem)

/-! ## Evaluating and storing the default -/

section Default

variable {field : Attribute σ} {lifetime : Duration} {document : Document} {now : Instant}
  {path : String} {before after : σ}

theorem yields_evaluateDefault_expiry_iff (hdefault : field.defaultValue = some (.expiry lifetime))
    {value : Option Value} :
    Yields (evaluateDefault now field document path) before value after ↔
      (∃ expires, now.add? lifetime = some expires ∧ value = some (.date expires)) ∧
        before = after := by
  unfold evaluateDefault
  rw [hdefault]
  dsimp only
  cases now.add? lifetime with
  | none => simp
  | some expires => simp [eq_comm]

theorem fails_evaluateDefault_expiry_iff (hdefault : field.defaultValue = some (.expiry lifetime))
    {cause : MapperError} :
    Fails (evaluateDefault now field document path) before cause ↔
      now.add? lifetime = none ∧ cause = .expiryTooLate path := by
  unfold evaluateDefault
  rw [hdefault]
  dsimp only
  cases now.add? lifetime with
  | none => simp [eq_comm]
  | some expires => simp

end Default

/-- A date is stored as the seconds of its own second, and is read as the beginning of that second. -/
theorem WireValue.exists_date?_seconds (t : Instant) :
    ∃ read, (ofDate t .seconds).date? .seconds = some read ∧ read.seconds = t.seconds ∧
      read.nanos = 0 := by
  have hread := date?_ofDate
    (show Instant.FitsStorage ⟨t.seconds, 0, t.valid.1, .inl (by decide)⟩ .seconds from rfl)
  exact ⟨_, hread, rfl, rfl⟩

/-- A date is stored as its only type says. -/
theorem Value.stored_of_yields_date {writing : Writing} {depth : Nat} {t : Instant}
    {scope : Scope σ} {place : Place} {storage : DateStorage} {stored : Option WireValue}
    {before after : σ}
    (hrun : Yields ((madeDraft writing depth (.date t)).write scope place [.date storage]) before
      stored after) : stored = some (.ofDate t storage) := by
  obtain ⟨depth, hrun⟩ := Drafts.exists_writerTo_of_madeDraft hrun
  have hchoice : scope.resolve place [.date storage] (.date t) =
      .ok ⟨.date storage, ⟨scope, place, .date storage⟩⟩ :=
    Scope.resolve_of_readings rfl (show (0 : Rat) < 1 by decide)
  rw [writerTo_eq] at hrun
  simp only [writer, writeChosen, hchoice] at hrun
  exact (Except.ok.inj (yields_ofExcept.mp hrun).1).symm

namespace Drafts

variable {make : Value → Draft σ} {writing : Writing} {place : Place}
  {drafts filled : Fields (Draft σ)} {field : Attribute σ} {before after : σ}

/-- An attribute that is not given is filled in with the time after its lifetime. -/
theorem of_yields_fill_expiry {lifetime : Duration}
    (hdefault : field.defaultValue = some (.expiry lifetime))
    (hmodifiers : field.writeModifiers = []) (hasked : writing.options.defaults = true)
    (hgiven : drafts.get? field.name = none)
    (hrun : Yields (fill make writing place drafts field) before filled after) :
    ∃ expires, writing.now.add? lifetime = some expires ∧
      filled.get? field.name = some (make (.date expires)) := by
  simp only [fill, wantsDefault, hgiven, hasked, hmodifiers, List.isEmpty_nil, Bool.not_true,
    Bool.and_false, Bool.false_eq_true, if_false, if_true] at hrun
  obtain ⟨found, _, hfound, hfilled⟩ := yields_bind.mp hrun
  obtain ⟨⟨expires, hexpires, rfl⟩, -⟩ := (yields_evaluateDefault_expiry_iff hdefault).mp hfound
  obtain ⟨rfl, -⟩ := yields_pure.mp hfilled
  exact ⟨expires, hexpires, Fields.get?_insert_self ..⟩

end Drafts

/-! ## Writing -/

/-- A document that gives no time of expiry is stored with the time after its lifetime. -/
theorem Frame.stores_expiry {frame : Frame σ} {field : Attribute σ} {lifetime : Duration}
    {writing : Writing} {document : Document} {item : Item} {before after : σ}
    (hschema : frame.schema.WellFormed) (hfield : field ∈ frame.schema.attributes)
    (htypes : field.types = [.date .seconds])
    (hdefault : field.defaultValue = some (.expiry lifetime)) (hmodifiers : field.writeModifiers = [])
    (hplain : ¬ frame.schema.Stamps field.name) (hasked : writing.options.defaults = true)
    (hgiven : (frame.schema.normalized document).get? field.name = none)
    (hrun : Yields (frame.write writing document) before item after) :
    ∃ expires, writing.now.add? lifetime = some expires ∧
      item.get? field.name = some (.ofDate expires .seconds) := by
  obtain ⟨filled, between, drafts, entries, hfilled, hcombined, hentries, rfl⟩ :=
    Drafts.of_yields_write hrun
  obtain ⟨given, found, _, _, hsame, hfill, hfound⟩ :=
    Drafts.exists_fill_of_foldlM hschema.distinct hfield hfilled
  rw [Drafts.get?_stamp_of_not_stamps hplain, Drafts.normalize_drafts, Fields.get?_mapValues,
    hgiven, Option.map_none] at hsame
  obtain ⟨expires, hexpires, hdraft⟩ :=
    Drafts.of_yields_fill_expiry hdefault hmodifiers hasked hsame hfill
  -- nothing combines the attribute
  have hcombine : field.combine? = none := by rw [AttributeOf.combine?, htypes]
  have hlast : drafts.get? field.name =
      some (Value.madeDraft writing writing.depth (.date expires)) := by
    rcases hcombined with rfl | hcombined
    · rw [hfound, hdraft]
    · rw [Drafts.get?_of_foldlM_combine hschema hfield hcombine hcombined, hfound, hdraft]
  obtain ⟨_, _, _, entry, _, _, -, -, hentry, hmem⟩ := hentries.exists_of_mem_mapM hfield
  refine ⟨expires, hexpires, ?_⟩
  rw [Drafts.get?_of_entries hschema
    (hentries.forall₂_mapM fun _ _ _ _ => Drafts.name_of_encodeAttribute) hmem]
  rcases Drafts.of_yields_encodeAttribute_draft hlast hentry with
    ⟨hundefined, -⟩ | ⟨stored, _, _, hstored, rfl⟩
  · rw [Value.madeDraft_value] at hundefined
    cases hundefined
  · rw [htypes] at hstored
    rw [Value.stored_of_yields_date hstored]
    rfl

/-- Let a model add the attribute with the time of expiry.  Its default is evaluated to the time of
writing and the lifetime, and fails exactly if there is no such date.  A document without the
attribute is stored with the seconds of that date, which are read as the date rounded down to the
second.  The date is that of the sum in nanoseconds, and there is one if the sum does not lie beyond
the last date.  It never does in the years up to 9999 if the lifetime is at most
`Duration.longestSafe`; longer lifetimes are accepted, too. -/
theorem Mapper.expires_after_lifetime {mapper : Mapper σ} {name : String} {schema : Schema σ}
    {expiry : Expiry} (hschema : schema.WellFormed)
    (hbuild : Model.build name schema (some expiry) = .ok mapper.model)
    (hadded : schema.attribute? expiry.name = none) :
    ∃ field ∈ mapper.model.schema.attributes, field.name = expiry.name ∧
      (∀ now document path before,
        (∀ value after, Yields (evaluateDefault now field document path) before value after ↔
          (∃ expires, now.add? expiry.lifetime = some expires ∧ value = some (.date expires)) ∧
            before = after) ∧
        ∀ cause, Fails (evaluateDefault now field document path) before cause ↔
          now.add? expiry.lifetime = none ∧ cause = .expiryTooLate path) ∧
      (∀ writing document before item after, writing.options.defaults = true →
        document.get? expiry.name = none →
        Yields (mapper.write writing document) before item after →
          ∃ expires stored read, writing.now.add? expiry.lifetime = some expires ∧
            item.get? expiry.name = some stored ∧ stored.date? .seconds = some read ∧
            read.seconds = expires.seconds ∧ read.nanos = 0) ∧
      (∀ now : Instant, now.nanos < 1000000000 →
        (∀ expires, now.add? expiry.lifetime = some expires ↔ expires.nanos < 1000000000 ∧
          expires.total = now.total + expiry.lifetime.total) ∧
        ((∃ expires, now.add? expiry.lifetime = some expires) ↔
          now.total + expiry.lifetime.total < (Instant.lastSecond + 1) * 1000000000)) ∧
      ((∀ now : Instant, now.IsModern → ∃ expires, now.add? expiry.lifetime = some expires) ↔
        expiry.lifetime.total ≤ Duration.longestSafe.total) := by
  obtain ⟨-, hfield, hplain⟩ := Model.of_build_added hschema hbuild hadded
  have hmodel := SchemaOf.wellFormed_of_modelBuild hschema hbuild
  refine ⟨expiry.declaration, hfield, rfl, ?_, ?_, ?_, Duration.forall_exists_add?_iff⟩
  · intro now document path before
    exact ⟨fun value after => yields_evaluateDefault_expiry_iff rfl,
      fun cause => fails_evaluateDefault_expiry_iff rfl⟩
  · intro writing document before item after hasked hgiven hrun
    have hnormalized := SchemaOf.get?_normalized_eq_none hmodel hfield rfl hgiven
    have hroot : mapper.scope.frame.schema.WellFormed := hmodel
    obtain ⟨expires, hexpires, hstored⟩ :=
      Frame.stores_expiry hroot hfield rfl rfl rfl hplain hasked hnormalized hrun
    obtain ⟨read, hread, hseconds, hnanos⟩ := WireValue.exists_date?_seconds expires
    exact ⟨expires, _, read, hexpires, hstored, hread, hseconds, hnanos⟩
  · intro now hnoLeap
    exact ⟨fun expires => Instant.add?_eq_some_iff_total hnoLeap,
      Instant.exists_add?_iff_total hnoLeap⟩

/-! ## Vouchers -/

/-- A voucher is given a number, and its model adds when it expires. -/
def SchemaOf.voucher : Schema Unit where
  attributes := [.plain "number" [.primitive .string]]
  keepUnknown := .disabled
  timestamps := none

theorem SchemaOf.build_voucher : build voucher.attributes .disabled none = .ok voucher :=
  rfl

/-- Vouchers of this lifetime. -/
def Model.voucher (lifetime : Duration) : Model Unit where
  name := "Voucher"
  schema :=
    { SchemaOf.voucher with
      attributes := SchemaOf.voucher.attributes ++ [Expiry.declaration ⟨lifetime, "ttl", true⟩] }
  expiry := some ⟨lifetime, "ttl", true⟩

/-- The mapper of the only model. -/
def Mapper.voucher (lifetime : Duration) : Mapper Unit :=
  ⟨⟨[.voucher lifetime]⟩, .voucher lifetime⟩

/-- A voucher for a minute and a half second, bought on the eve of the second second of 1970, expires
in the second that the sum lies in. -/
theorem Mapper.expires_after_lifetime_voucher :
    SchemaOf.voucher.WellFormed ∧
      Model.build "Voucher" .voucher (some ⟨⟨60, 500000000, by decide⟩, "ttl", true⟩) =
        .ok (voucher ⟨60, 500000000, by decide⟩).model ∧
      SchemaOf.voucher.attribute? "ttl" = none ∧
      ∃ expires : Instant, expires.total = 61100000000 ∧
        ∃ item stored read, Yields ((voucher ⟨60, 500000000, by decide⟩).write
          ⟨.save, ⟨0, 600000000, by decide⟩, 0⟩ [("number", .string "7")]) () item () ∧
          item.get? "ttl" = some stored ∧ stored.date? .seconds = some read ∧
          read.seconds = expires.seconds ∧ read.nanos = 0 := by
  have hschema := SchemaOf.wellFormed_of_build SchemaOf.build_voucher
  have hbuild : Model.build "Voucher" .voucher (some ⟨⟨60, 500000000, by decide⟩, "ttl", true⟩) =
      .ok (voucher ⟨60, 500000000, by decide⟩).model := rfl
  have hwrite : Yields ((voucher ⟨60, 500000000, by decide⟩).write
      ⟨.save, ⟨0, 600000000, by decide⟩, 0⟩ [("number", .string "7")]) ()
      [("number", .string "7"), ("ttl", .number "61")] () := yields_of_value? (by decide +kernel)
  obtain ⟨_, -, -, -, hstores, hsums, -⟩ :=
    expires_after_lifetime hschema hbuild rfl
  obtain ⟨expires, stored, read, hexpires, hstored, hread, hsame⟩ :=
    hstores _ _ _ _ _ rfl rfl hwrite
  have htotal := ((hsums ⟨0, 600000000, by decide⟩ (by decide)).1 expires).mp hexpires
  exact ⟨hschema, hbuild, rfl, expires, htotal.2, _, stored, read, hwrite, hstored, hread, hsame⟩

/-- A lifetime of some three hundred thousand years is accepted, but nothing can be written. -/
theorem Mapper.voucher_expires_too_late :
    Model.build "Voucher" .voucher (some ⟨9000000000000, "ttl", true⟩) =
        .ok (voucher 9000000000000).model ∧
      Instant.epoch.IsModern ∧
      Fails ((voucher 9000000000000).write ⟨.save, .epoch, 0⟩ [("number", .string "7")]) ()
        (.expiryTooLate "ttl") :=
  ⟨rfl, Instant.isModern_iff.mpr ⟨by decide, by decide⟩, rfl⟩

end ItemMapper
