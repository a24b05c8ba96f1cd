import ItemMapper.Proofs.Update.Implied

/-!
# Combined attributes follow their sources

The last changes of an update concern the combined attributes.  They are worked off one after
another, and each replaces what is said of its attribute so far, so that a later one looks at other
changes than an earlier one.  It makes no difference: the sources of a combined attribute are plain,
so what one combined attribute does to the changes is invisible to every other one
(`sameAt_of_follows`).

Hence all of them can be told from the changes before the first (`isRecombined`), and
`recombine_fold` gives the result at once: the changes that concern no recombined attribute,
followed by one change for each recombined attribute in the order of the schema.  What that change
is, `Recombines` says.
-/

namespace ItemMapper

variable {σ : Type}

namespace Scope

variable {scope : Scope σ} {current : Document}

/-! ## What a combined attribute asks of the changes -/

/-- A combined attribute follows the changes: a source is removed, or a source or the attribute
itself is assigned a value. -/
def isRecombined (changes : List (Change σ)) (field : Attribute σ) : Bool :=
  field.combine?.any fun (sources, _) =>
    sources.any (isRemoved changes) ||
      (field.name :: sources).any fun name => (assignedValue? changes name).isSome

theorem isSome_combine?_of_isRecombined {changes : List (Change σ)} {field : Attribute σ}
    (hactive : isRecombined changes field = true) : field.combine?.isSome = true := by
  cases hcombine : field.combine? with
  | none => simp [isRecombined, hcombine] at hactive
  | some combined => rfl

/-- The change lets a combined attribute follow the given ones.  Either the attribute is the joined
text of the sources as they are after the update, or it is removed because a source is and none of
them has a value left. -/
def Recombines (scope : Scope σ) (current : Document) (changes : List (Change σ))
    (field : Attribute σ) (change : Change σ) : Prop :=
  change.target = .ofAttribute field ∧ ∃ sources separator,
    field.combine? = some (sources, separator) ∧
      ((∃ values text,
          List.Forall₂ (fun source value => scope.updatedValue? current changes source = some value)
            sources values ∧
          joinSources values separator field.name = .ok text ∧
          change.request = .set (.string text)) ∨
        ((∃ source ∈ sources, isRemoved changes source = true) ∧
          (∀ source ∈ sources, scope.updatedValue? current changes source = none) ∧
          change.request = .remove false))

/-- Two lists of changes say the same of an attribute. -/
structure SameAt (changes others : List (Change σ)) (name : String) : Prop where
  assigned : assignedValue? changes name = assignedValue? others name
  removed : isRemoved changes name = isRemoved others name

theorem SameAt.updatedValue?_eq {changes others : List (Change σ)} {name : String}
    (hsame : SameAt changes others name) :
    scope.updatedValue? current changes name = scope.updatedValue? current others name := by
  rw [updatedValue?, updatedValue?, hsame.assigned, hsame.removed]

theorem any_eq_any {α : Type} {items : List α} {p q : α → Bool}
    (hsame : ∀ item ∈ items, p item = q item) : items.any p = items.any q := by
  rw [Bool.eq_iff_iff, List.any_eq_true, List.any_eq_true]
  exact exists_congr fun item => and_congr_right fun hitem => by rw [hsame item hitem]

theorem isRecombined_congr {changes others : List (Change σ)} {field : Attribute σ}
    (hown : SameAt changes others field.name)
    (hsources : ∀ sources separator, field.combine? = some (sources, separator) →
      ∀ source ∈ sources, SameAt changes others source) :
    isRecombined changes field = isRecombined others field := by
  cases hcombine : field.combine? with
  | none => simp [isRecombined, hcombine]
  | some combined =>
      obtain ⟨sources, separator⟩ := combined
      have hsame := hsources sources separator hcombine
      have hremoved : sources.any (isRemoved changes) = sources.any (isRemoved others) :=
        any_eq_any fun source hsource => (hsame source hsource).removed
      have hassigned : (sources.any fun name => (assignedValue? changes name).isSome) =
          sources.any fun name => (assignedValue? others name).isSome :=
        any_eq_any fun source hsource => by rw [(hsame source hsource).assigned]
      simp [isRecombined, hcombine, hremoved, hassigned, hown.assigned]

theorem Recombines.congr {changes others : List (Change σ)} {field : Attribute σ}
    {change : Change σ} (hfollows : scope.Recombines current changes field change)
    (hsources : ∀ sources separator, field.combine? = some (sources, separator) →
      ∀ source ∈ sources, SameAt changes others source) :
    scope.Recombines current others field change := by
  obtain ⟨htarget, sources, separator, hcombine, hrequest⟩ := hfollows
  have hsame := hsources sources separator hcombine
  refine ⟨htarget, sources, separator, hcombine, ?_⟩
  rcases hrequest with ⟨values, text, hvalues, htext, hrequest⟩ | ⟨hremoved, hnone, hrequest⟩
  · refine .inl ⟨values, text, ?_, htext, hrequest⟩
    refine List.forall₂_iff_get.mpr ⟨hvalues.length_eq, fun i hsource hvalue => ?_⟩
    rw [← (hsame _ (List.get_mem _ _)).updatedValue?_eq]
    exact hvalues.get hsource hvalue
  · obtain ⟨source, hsource, hremoved⟩ := hremoved
    refine .inr ⟨⟨source, hsource, ?_⟩, ?_, hrequest⟩
    · rw [← (hsame source hsource).removed, hremoved]
    · intro other hother
      rw [← (hsame other hother).updatedValue?_eq, hnone other hother]

/-! ## One combined attribute -/

/-- The changes after a combined attribute has followed them. -/
inductive Follows (scope : Scope σ) (current : Document) (field : Attribute σ)
    (changes : List (Change σ)) : List (Change σ) → Prop
  | untouched (hidle : isRecombined changes field = false) :
      Follows scope current field changes changes
  | recombined (change : Change σ) (hactive : isRecombined changes field = true)
      (hchange : scope.Recombines current changes field change) :
      Follows scope current field changes
        ((changes.filter fun other => !other.concerns field.name) ++ [change])

/-- The values of the sources, if none is missing. -/
theorem forall₂_filterMap_of_forall_isSome {α β : Type} {f : α → Option β} {items : List α}
    (hall : ∀ item ∈ items, (f item).isSome = true) :
    List.Forall₂ (fun item value => f item = some value) items (items.filterMap f) := by
  induction items with
  | nil => exact .nil
  | cons item rest ih =>
      obtain ⟨value, hvalue⟩ := Option.isSome_iff_exists.mp (hall item (by simp))
      rw [List.filterMap_cons_some hvalue]
      exact .cons hvalue (ih fun other hother => hall other (by simp [hother]))

theorem follows_of_recombine {changes after : List (Change σ)} {field : Attribute σ}
    (hschema : scope.root.WellFormed) (hnames : scope.root.Addressable)
    (hfield : field ∈ scope.root.attributes)
    (hrun : scope.recombine current changes field = .ok after) :
    Follows scope current field changes after := by
  unfold recombine at hrun
  split at hrun
  case h_1 hcombine =>
    obtain rfl := Except.ok.inj hrun
    exact .untouched (by simp [isRecombined, hcombine])
  case h_2 sources separator hcombine =>
    dsimp only at hrun
    split at hrun
    case isTrue hidle =>
      obtain rfl := Except.ok.inj hrun
      refine .untouched ?_
      simpa [isRecombined, hcombine] using hidle
    case isFalse hactive =>
      have hactive : isRecombined changes field = true := by
        simp only [isRecombined, hcombine, Option.any_some]
        grind
      split at hrun
      case isTrue hgone =>
        simp only [Bool.and_eq_true, List.any_eq_true, List.isEmpty_iff,
          List.filterMap_eq_nil_iff] at hgone
        simp only [lookup_nativeName hschema hnames hfield] at hrun
        obtain rfl := Except.ok.inj hrun
        exact .recombined _ hactive ⟨rfl, sources, separator, hcombine, .inr ⟨hgone.1, hgone.2, rfl⟩⟩
      case isFalse hleft =>
        split at hrun
        case isTrue hmissing => simp at hrun
        case isFalse hnone =>
          simp only [Except.bind_eq_ok, Except.pure_eq_ok] at hrun
          obtain ⟨text, htext, change, hchange, rfl⟩ := hrun
          obtain rfl := eq_of_assign (lookup_nativeName hschema hnames hfield) hchange
          refine .recombined _ hactive ⟨rfl, sources, separator, hcombine, .inl
            ⟨_, text, forall₂_filterMap_of_forall_isSome ?_, htext, rfl⟩⟩
          intro source hsource
          simp only [Bool.not_eq_true', Bool.not_eq_false, List.isEmpty_iff,
            List.filter_eq_nil_iff] at hnone
          exact Option.isSome_iff_ne_none.mpr (by simpa using hnone source hsource)

/-! ## What one combined attribute leaves as it is -/

theorem assignedValue?_append (first second : List (Change σ)) (name : String) :
    assignedValue? (first ++ second) name =
      (assignedValue? first name).or (assignedValue? second name) := by
  simp [assignedValue?, List.findSome?_append]

theorem isRemoved_append (first second : List (Change σ)) (name : String) :
    isRemoved (first ++ second) name = (isRemoved first name || isRemoved second name) := by
  simp [isRemoved]

/-- Without changes of other attributes, the same is said of an attribute. -/
theorem sameAt_filter {changes : List (Change σ)} {keeps : Change σ → Bool} {name : String}
    (hkeeps : ∀ change ∈ changes, change.concerns name = true → keeps change = true) :
    SameAt (changes.filter keeps) changes name := by
  induction changes with
  | nil => exact ⟨rfl, rfl⟩
  | cons change rest ih =>
      obtain ⟨hassigned, hremoved⟩ := ih fun other hother => hkeeps other (by simp [hother])
      cases hkept : keeps change with
      | true =>
          rw [List.filter_cons_of_pos hkept]
          constructor
          · simp only [assignedValue?, List.findSome?_cons] at hassigned ⊢
            rw [hassigned]
          · simp only [isRemoved, List.any_cons] at hremoved ⊢
            rw [hremoved]
      | false =>
          have hforeign : change.concerns name = false := by
            rw [Bool.eq_false_iff]
            intro hconcerns
            simp [hkeeps change (by simp) hconcerns] at hkept
          rw [List.filter_cons_of_neg (by simp [hkept])]
          constructor
          · rw [hassigned]
            simp [assignedValue?, hforeign]
          · rw [hremoved]
            simp [isRemoved, hforeign]

/-- More changes of other attributes do not count either. -/
theorem sameAt_append {changes added : List (Change σ)} {name : String}
    (hforeign : ∀ change ∈ added, change.concerns name = false) :
    SameAt (changes ++ added) changes name := by
  have hnone : assignedValue? added name = none := by
    rw [assignedValue?, List.findSome?_eq_none_iff]
    intro change hchange
    simp [hforeign change hchange]
  have hkept : isRemoved added name = false := by
    rw [isRemoved, List.any_eq_false]
    intro change hchange
    simp [hforeign change hchange]
  constructor
  · rw [assignedValue?_append, hnone, Option.or_none]
  · rw [isRemoved_append, hkept, Bool.or_false]

theorem SameAt.trans {changes others more : List (Change σ)} {name : String}
    (hfirst : SameAt changes others name) (hsecond : SameAt others more name) :
    SameAt changes more name :=
  ⟨hfirst.assigned.trans hsecond.assigned, hfirst.removed.trans hsecond.removed⟩

/-- A combined attribute that follows the changes leaves alone what they say of the others. -/
theorem sameAt_of_follows {changes after : List (Change σ)} {field : Attribute σ} {name : String}
    (hfollows : Follows scope current field changes after) (hname : name ≠ field.name) :
    SameAt after changes name := by
  cases hfollows with
  | untouched => exact ⟨rfl, rfl⟩
  | recombined change hactive hchange =>
      refine (sameAt_append ?_).trans (sameAt_filter ?_)
      · intro other hother
        obtain rfl := List.mem_singleton.mp hother
        rw [Bool.eq_false_iff, ne_eq, Change.concerns_iff_of_ofAttribute hchange.1]
        exact hname.symm
      · intro other _ hconcerns
        simp only [Change.concerns, beq_iff_eq] at hconcerns
        simp [Change.concerns, hconcerns, hname]

/-! ## All combined attributes -/

/-- No combined attribute is a source of another, and their names differ. -/
structure Independent (fields : List (Attribute σ)) : Prop where
  distinct : (fields.map AttributeOf.name).Nodup
  plainSources : ∀ field ∈ fields, ∀ sources separator,
    field.combine? = some (sources, separator) →
      ∀ other ∈ fields, other.combine?.isSome = true → other.name ∉ sources

theorem independent_attributes (hschema : scope.root.WellFormed) :
    Independent scope.root.attributes where
  distinct := hschema.distinct
  plainSources := by
    intro field hfield sources separator hcombine other hother hsome hsource
    obtain ⟨plain, hplain, hname, hnone⟩ :=
      hschema.plainSources field hfield sources separator hcombine _ hsource
    obtain rfl := hschema.eq_of_name_eq hplain hother hname
    simp [hnone] at hsome

theorem Independent.tail {field : Attribute σ} {rest : List (Attribute σ)}
    (h : Independent (field :: rest)) : Independent rest where
  distinct := (List.nodup_cons.mp h.distinct).2
  plainSources := fun other hother sources separator hcombine source hsource =>
    h.plainSources other (by simp [hother]) sources separator hcombine source (by simp [hsource])

theorem Independent.name_ne {field : Attribute σ} {rest : List (Attribute σ)}
    (h : Independent (field :: rest)) : ∀ other ∈ rest, other.name ≠ field.name := by
  intro other hother hname
  exact (List.nodup_cons.mp h.distinct).1 (List.mem_map.mpr ⟨other, hother, hname⟩)

/-- A combined attribute is no source of the later ones. -/
theorem Independent.source_ne {field : Attribute σ} {rest : List (Attribute σ)}
    (h : Independent (field :: rest)) (hcombined : field.combine?.isSome = true) :
    ∀ other ∈ rest, ∀ sources separator, other.combine? = some (sources, separator) →
      ∀ source ∈ sources, source ≠ field.name := by
  rintro other hother sources separator hcombine source hsource rfl
  exact h.plainSources other (by simp [hother]) sources separator hcombine field (by simp)
    hcombined hsource

/-- The changes that concern none of some attributes. -/
def besides (fields : List (Attribute σ)) (changes : List (Change σ)) : List (Change σ) :=
  changes.filter fun change => !fields.any fun field => change.concerns field.name

/-- What takes the place of the changes of one attribute stays beside the others. -/
theorem besides_replace {field : Attribute σ} {fields : List (Attribute σ)}
    {changes : List (Change σ)} {change : Change σ}
    (hforeign : ∀ other ∈ fields, change.concerns other.name = false) :
    besides fields ((changes.filter fun other => !other.concerns field.name) ++ [change]) =
      besides (field :: fields) changes ++ [change] := by
  rw [besides, List.filter_append, List.filter_filter, List.filter_cons_of_pos (by simpa using hforeign)]
  simp [besides, Bool.and_comm]

/-- All combined attributes together: each that the changes concern gets one change of its own in
place of those that there are. -/
theorem recombine_fold (hschema : scope.root.WellFormed) (hnames : scope.root.Addressable) :
    ∀ {fields : List (Attribute σ)} {changes after : List (Change σ)},
      Independent fields → (∀ field ∈ fields, field ∈ scope.root.attributes) →
      fields.foldlM (scope.recombine current) changes = .ok after →
      ∃ followed, after = besides (fields.filter (isRecombined changes)) changes ++ followed ∧
        List.Forall₂ (scope.Recombines current changes) (fields.filter (isRecombined changes))
          followed := by
  intro fields
  induction fields with
  | nil =>
      intro changes after _ _ hrun
      obtain rfl := Except.ok.inj hrun
      exact ⟨[], by simp [besides], .nil⟩
  | cons field rest ih =>
      intro changes after hfields hdeclared hrun
      rw [List.foldlM_cons, Except.bind_eq_ok] at hrun
      obtain ⟨between, hstep, hrest⟩ := hrun
      have hfollows := follows_of_recombine hschema hnames (hdeclared field (by simp)) hstep
      have hsame : ∀ name, name ≠ field.name → SameAt between changes name :=
        fun name => sameAt_of_follows hfollows
      obtain ⟨followed, rfl, hall⟩ :=
        ih hfields.tail (fun other hother => hdeclared other (by simp [hother])) hrest
      cases hfollows with
      | untouched hidle =>
          rw [List.filter_cons_of_neg (by simp [hidle])]
          exact ⟨followed, rfl, hall⟩
      | recombined change hactive hchange =>
          -- what the rest looks at has not changed
          have hsources : ∀ other ∈ rest, ∀ sources separator,
              other.combine? = some (sources, separator) → ∀ source ∈ sources,
                SameAt ((changes.filter fun other => !other.concerns field.name) ++ [change]) changes
                  source := by
            intro other hother sources separator hcombine source hsource
            apply hsame
            exact hfields.source_ne (isSome_combine?_of_isRecombined hactive) other hother sources
              separator hcombine source hsource
          have hstill : rest.filter (isRecombined
                ((changes.filter fun other => !other.concerns field.name) ++ [change])) =
              rest.filter (isRecombined changes) := by
            apply List.filter_congr
            intro other hother
            exact isRecombined_congr (hsame _ (hfields.name_ne other hother))
              (hsources other hother)
          have hmembers : ∀ other ∈ rest.filter (isRecombined changes), other ∈ rest :=
            fun other hother => (List.mem_filter.mp hother).1
          have hforeign : ∀ other ∈ rest.filter (isRecombined changes),
              change.concerns other.name = false := by
            intro other hother
            rw [Bool.eq_false_iff, ne_eq, Change.concerns_iff_of_ofAttribute hchange.1]
            exact (hfields.name_ne other (hmembers other hother)).symm
          rw [hstill] at hall ⊢
          rw [List.filter_cons_of_pos hactive, besides_replace hforeign]
          refine ⟨change :: followed, by simp, .cons hchange ?_⟩
          refine ((List.forall₂_and_left _ _).mpr ⟨hmembers, hall⟩).imp ?_
          rintro other followedChange ⟨hother, hrecombines⟩
          exact hrecombines.congr (hsources other hother)

end Scope

end ItemMapper
