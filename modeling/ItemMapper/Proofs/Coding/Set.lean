import ItemMapper.Coding.Natural
import ItemMapper.Proofs.Coding.Date
import ItemMapper.Proofs.Number.Decimal

/-!
# Stored sets are read back

`SetElement.exists_stored`: a set of different members of one kind has a stored form, and what is
read from it are the members in their order.

The stored form lists each stored member once.  Different members have different stored forms,
because each of them is read back, so nothing is lost.  Numbers are different here if they are not
equal; the two zeros can not both be members.
-/

namespace ItemMapper

/-! ## Lists of one kind -/

theorem exists_eq_map {α β : Type} {f : α → β} {property : α → Prop} {values : List β}
    (hvalues : ∀ value ∈ values, ∃ x, value = f x ∧ property x) :
    ∃ xs : List α, values = xs.map f ∧ ∀ x ∈ xs, property x := by
  induction values with
  | nil => exact ⟨[], rfl, by simp⟩
  | cons value rest ih =>
      obtain ⟨x, rfl, hx⟩ := hvalues value (by simp)
      obtain ⟨xs, rfl, hxs⟩ := ih fun other hother => hvalues other (by simp [hother])
      exact ⟨x :: xs, rfl, List.forall_mem_cons.mpr ⟨hx, hxs⟩⟩

theorem nodup_eraseDups {α : Type} [DecidableEq α] (items : List α) : items.eraseDups.Nodup := by
  induction hlength : items.length using Nat.strong_induction_on generalizing items with
  | _ length ih =>
      cases items with
      | nil => simp
      | cons item rest =>
          have hshorter : (rest.filter fun other => !other == item).length < length := by
            rw [← hlength]
            exact Nat.lt_succ_of_le (List.length_filter_le _ _)
          rw [List.eraseDups_cons, List.nodup_cons]
          exact ⟨by simp, ih _ hshorter _ rfl⟩

theorem eraseDups_of_nodup {α : Type} [DecidableEq α] {items : List α} (hdistinct : items.Nodup) :
    items.eraseDups = items := by
  induction items with
  | nil => rfl
  | cons item rest ih =>
      obtain ⟨hfresh, hrest⟩ := List.nodup_cons.mp hdistinct
      have hkeep : (rest.filter fun other => !other == item) = rest := by
        apply List.filter_eq_self.mpr
        intro other hother
        have hne : other ≠ item := fun heq => hfresh (heq ▸ hother)
        simpa using hne
      rw [List.eraseDups_cons, hkeep, ih hrest]

/-- Items that are as many as before are still all there. -/
theorem eraseDups_of_length {α : Type} [DecidableEq α] {items : List α}
    (hlength : items.eraseDups.length = items.length) : items.eraseDups = items := by
  have hsubset : items.eraseDups.Subperm items :=
    (nodup_eraseDups items).subperm fun item hitem => List.mem_eraseDups.mp hitem
  have hperm := hsubset.perm_of_length_le hlength.ge
  exact eraseDups_of_nodup (hperm.nodup_iff.mp (nodup_eraseDups items))

theorem mapM_map_eq_some {α β : Type} {f : α → β} {g : β → Option α} {xs : List α}
    (hxs : ∀ x ∈ xs, g (f x) = some x) : (xs.map f).mapM g = some xs := by
  induction xs with
  | nil => rfl
  | cons x rest ih =>
      rw [List.map_cons, List.mapM_cons, hxs x (by simp), ih fun y hy => hxs y (by simp [hy])]
      rfl

theorem forall₂_of_mapM_eq_some {α β : Type} {f : α → Option β} :
    ∀ {items : List α} {values : List β}, items.mapM f = some values →
      List.Forall₂ (fun item value => f item = some value) items values
  | [], values, hvalues => by
      obtain rfl : values = [] := by simpa using hvalues.symm
      exact .nil
  | item :: rest, values, hvalues => by
      simp only [List.mapM_cons, Option.bind_eq_bind, Option.bind_eq_some_iff, Option.pure_def,
        Option.some.injEq] at hvalues
      obtain ⟨value, hitem, others, hrest, rfl⟩ := hvalues
      exact .cons hitem (forall₂_of_mapM_eq_some hrest)

theorem Value.equalItems_map {α : Type} {f g : α → Value} {xs : List α}
    (hxs : ∀ x ∈ xs, (f x).equal (g x) = true) : equalItems (xs.map f) (xs.map g) = true := by
  induction xs with
  | nil => rfl
  | cons x rest ih =>
      rw [List.map_cons, List.map_cons, equalItems, hxs x (by simp), Bool.true_and]
      exact ih fun y hy => hxs y (by simp [hy])

namespace SetElement

/-! ## Storing the members -/

/-- The values that a set of a kind holds. -/
def Holds : SetElement → Value → Prop
  | .string, value => ∃ text, value = .string text
  | .number, value => ∃ x, value = .number x ∧ x ≠ .nan
  | .binary, value => ∃ bytes, value = .binary bytes
  | .date storage, value => ∃ t, value = .date t ∧ t.FitsStorage storage

variable {α : Type}

theorem members_map (element : SetElement) {f : α → Value} {g : α → SetMember}
    (hmember : ∀ x, element.member? (f x) = some (g x)) (xs : List α) :
    element.members (xs.map f) = .ok (xs.map g) := by
  induction xs with
  | nil => rfl
  | cons x rest ih => rw [List.map_cons, members, hmember, ih]; rfl

theorem texts_map (texts : List String) : SetMember.texts (texts.map .text) = texts := by
  simp [SetMember.texts, List.filterMap_map]

theorem binaries_map (contents : List (List UInt8)) :
    SetMember.binaries (contents.map .bytes) = contents := by
  simp [SetMember.binaries, List.filterMap_map]

/-- The stored set of members that are texts. -/
theorem store?_texts (element : SetElement) {texts : List String} (hne : texts ≠ [])
    (hdistinct : texts.Nodup) (htext : element.wireType ≠ .binarySet) :
    element.store? (texts.map .text) = some
      (if element.wireType = .stringSet then .stringSet texts else .numberSet texts) := by
  have hmembers : (texts.map SetMember.text).Nodup :=
    hdistinct.map fun _ _ heq => SetMember.text.inj heq
  unfold store?
  rw [eraseDups_of_nodup hmembers]
  split
  case h_1 hnil => exact absurd (List.map_eq_nil_iff.mp hnil) hne
  case h_2 =>
    rw [texts_map]
    cases hwire : element.wireType <;> simp_all

/-! ## Reading them back -/

/-- The text that a date is stored with. -/
def dateText (storage : DateStorage) (t : Instant) : String :=
  match storage with
  | .milliseconds => toString t.millis
  | .seconds => toString t.seconds
  | .iso => t.isoText

theorem scalarText?_ofDate (t : Instant) (storage : DateStorage) :
    scalarText? (.ofDate t storage) = some (dateText storage t) := by
  cases storage <;> rfl

theorem dateText_inj {storage : DateStorage} {t u : Instant} (ht : t.FitsStorage storage)
    (hu : u.FitsStorage storage) (htext : dateText storage t = dateText storage u) : t = u := by
  have hsame : WireValue.ofDate t storage = WireValue.ofDate u storage := by
    cases storage <;> exact congrArg _ htext
  have hread := WireValue.date?_ofDate ht
  rw [hsame, WireValue.date?_ofDate hu] at hread
  exact (Option.some.inj hread).symm

theorem text_inj {x y : Binary64} (hx : x ≠ .nan) (hy : y ≠ .nan) (htext : x.text = y.text) :
    x.equal y = true := by
  obtain ⟨z, hz, hxz⟩ := Binary64.exists_parse?_text hx
  obtain ⟨z', hz', hyz⟩ := Binary64.exists_parse?_text hy
  rw [htext, hz'] at hz
  obtain rfl := Option.some.inj hz
  exact Binary64.equal_of_equal_left hxz hyz

/-- What a set of one kind is stored as, and what is read from it. -/
structure StoredSet (element : SetElement) (members : List Value) (stored : WireValue)
    (back : Value) : Prop where
  encode : element.encode members = .ok (some stored)
  isSetOf : stored.isSetOf element = true
  setOf? : stored.setOf? element = some back
  equal : back.equal (.set members) = true

variable {members : List Value}

theorem exists_storedStrings (hne : members ≠ [])
    (hdistinct : members.Pairwise fun a b => a.equal b = false)
    (hmembers : ∀ member ∈ members, SetElement.string.Holds member) :
    ∃ stored back, StoredSet .string members stored back := by
  have hstrings : ∀ member ∈ members, ∃ text, member = .string text ∧ True := by
    simpa [Holds] using hmembers
  obtain ⟨texts, rfl, -⟩ := exists_eq_map hstrings
  have htexts : texts.Nodup := by
    refine List.Pairwise.imp ?_ (List.pairwise_map.mp hdistinct)
    rintro text _ hdifferent rfl
    simp [Value.equal] at hdifferent
  refine ⟨.stringSet texts, .set (texts.map .string), ?_, rfl, rfl, ?_⟩
  · rw [encode, members_map .string (fun _ => rfl)]
    exact congrArg Except.ok (store?_texts .string (by simpa using hne) htexts (by decide))
  · exact Value.equalItems_map fun text _ => by simp [Value.equal]

theorem exists_storedNumbers (hne : members ≠ [])
    (hdistinct : members.Pairwise fun a b => a.equal b = false)
    (hmembers : ∀ member ∈ members, SetElement.number.Holds member) :
    ∃ stored back, StoredSet .number members stored back := by
  obtain ⟨numbers, rfl, hnumbers⟩ := exists_eq_map hmembers
  have htexts : (numbers.map Binary64.text).Nodup := by
    refine List.pairwise_map.mpr (List.Pairwise.imp_of_mem ?_ (List.pairwise_map.mp hdistinct))
    intro x y hx hy hdifferent htext
    -- the two zeros have the same text, but a set does not hold both
    have hsame := text_inj (hnumbers x hx) (hnumbers y hy) htext
    simp [Value.equal, hsame] at hdifferent
  refine ⟨.numberSet (numbers.map Binary64.text),
    .set ((numbers.map Binary64.text).map .ofNumberText), ?_, rfl, rfl, ?_⟩
  · rw [encode, members_map .number (g := fun x => .text x.text) (fun _ => rfl)]
    have hstore := store?_texts .number (by simpa using hne) htexts (by decide)
    rw [List.map_map] at hstore
    exact congrArg Except.ok hstore
  · rw [List.map_map]
    apply Value.equalItems_map
    intro x hx
    obtain ⟨y, hy, hequal⟩ := Binary64.exists_parse?_text (hnumbers x hx)
    simpa [Value.ofNumberText, hy, Value.equal] using hequal

theorem exists_storedBinaries (hne : members ≠ [])
    (hdistinct : members.Pairwise fun a b => a.equal b = false)
    (hmembers : ∀ member ∈ members, SetElement.binary.Holds member) :
    ∃ stored back, StoredSet .binary members stored back := by
  have hbinaries : ∀ member ∈ members, ∃ content, member = .binary content ∧ True := by
    simpa [Holds] using hmembers
  obtain ⟨contents, rfl, -⟩ := exists_eq_map hbinaries
  have hcontents : (contents.map SetMember.bytes).Nodup := by
    refine List.pairwise_map.mpr (List.Pairwise.imp ?_ (List.pairwise_map.mp hdistinct))
    intro content other hdifferent heq
    simp [Value.equal, SetMember.bytes.inj heq] at hdifferent
  refine ⟨.binarySet contents, .set (contents.map .binary), ?_, rfl, rfl, ?_⟩
  · rw [encode, members_map .binary (fun _ => rfl)]
    refine congrArg Except.ok ?_
    unfold store?
    rw [eraseDups_of_nodup hcontents]
    split
    case h_1 hnil => exact absurd (by simpa using hnil) hne
    case h_2 => rw [binaries_map]; rfl
  · exact Value.equalItems_map fun content _ => by simp [Value.equal]

/-- A set of dates is read if each of them is. -/
theorem setOf?_dates {storage : DateStorage} {dates : List Instant}
    (hread : ∀ t ∈ dates, (WireValue.ofDate t storage).date? storage = some t) :
    (if (SetElement.date storage).wireType = .stringSet
      then WireValue.stringSet (dates.map (dateText storage))
      else .numberSet (dates.map (dateText storage))).setOf? (.date storage) =
        some (.set (dates.map .date)) := by
  -- the three forms differ only in how one text is read
  have hset : ∀ read : String → Option Instant,
      (∀ t ∈ dates, read (dateText storage t) = some t) →
        (((dates.map (dateText storage)).mapM read).map fun dates => Value.set (dates.map .date)) =
          some (.set (dates.map .date)) :=
    fun read hread => congrArg (Option.map _) (mapM_map_eq_some hread)
  cases storage with
  | iso => exact hset (fun text => (WireValue.string text).date? .iso) hread
  | milliseconds => exact hset (fun text => (WireValue.number text).date? .milliseconds) hread
  | seconds => exact hset (fun text => (WireValue.number text).date? .seconds) hread

/-- The members of a set of dates are their texts. -/
theorem members_dates (storage : DateStorage) (dates : List Instant) :
    (SetElement.date storage).members (dates.map .date) =
      .ok ((dates.map (dateText storage)).map .text) := by
  rw [members_map (.date storage) (g := fun t => .text (dateText storage t))
    (fun t => by rw [member?, Value.date?, Option.bind_some, scalarText?_ofDate, Option.map_some]),
    List.map_map]
  rfl

theorem exists_storedDates {storage : DateStorage} (hne : members ≠ [])
    (hdistinct : members.Pairwise fun a b => a.equal b = false)
    (hmembers : ∀ member ∈ members, (SetElement.date storage).Holds member) :
    ∃ stored back, StoredSet (.date storage) members stored back := by
  obtain ⟨dates, rfl, hdates⟩ := exists_eq_map hmembers
  have htexts : (dates.map (dateText storage)).Nodup := by
    refine List.pairwise_map.mpr (List.Pairwise.imp_of_mem ?_ (List.pairwise_map.mp hdistinct))
    intro t u ht hu hdifferent htext
    simp [Value.equal, dateText_inj (hdates t ht) (hdates u hu) htext] at hdifferent
  have hencode : (SetElement.date storage).encode (dates.map .date) =
      .ok (some (if (SetElement.date storage).wireType = .stringSet
        then .stringSet (dates.map (dateText storage))
        else .numberSet (dates.map (dateText storage)))) := by
    rw [encode, members_dates]
    exact congrArg Except.ok (store?_texts (.date storage) (by simpa using hne) htexts
      (by cases storage <;> decide))
  exact ⟨_, _, hencode, by cases storage <;> rfl,
    setOf?_dates fun t ht => WireValue.date?_ofDate (hdates t ht),
    Value.equalItems_map fun t _ => by simp [Value.equal]⟩

/-- A set of different members of one kind is stored and read back. -/
theorem exists_stored {element : SetElement} (hne : members ≠ [])
    (hdistinct : members.Pairwise fun a b => a.equal b = false)
    (hmembers : ∀ member ∈ members, element.Holds member) :
    ∃ stored back, StoredSet element members stored back := by
  cases element with
  | string => exact exists_storedStrings hne hdistinct hmembers
  | number => exact exists_storedNumbers hne hdistinct hmembers
  | binary => exact exists_storedBinaries hne hdistinct hmembers
  | date storage => exact exists_storedDates hne hdistinct hmembers

end SetElement

end ItemMapper
