import ItemMapper.Expression.Update
import ItemMapper.Proofs.Plain.Conversion
import ItemMapper.Proofs.Update.Paths

/-!
# Plain updates

A flattened update gives each attribute a value, where the undefined value removes it
(`Request.ofValue`).  With the plain options such an update implies nothing and its values are not
changed or checked, so that each field becomes one action: `Scope.yields_updateActions_plain`.

The action sets the path to what the value is stored as, or removes the path if it is stored as
nothing.  `Scope.AssignsAs` is the counterpart of `Frame.StoresAs` for updates; the two differ in
the place that a declared value is looked at, and in undeclared values.
-/

namespace ItemMapper

variable {σ α : Type}

open Pipeline

/-! ## Flattened requests -/

namespace Request

/-- What a value asks for that stands under the path of an attribute. -/
def ofValue (value : Value) : Request :=
  if value.isUndefined then .remove false else .set value

theorem ofField_of_flat {key : String} (hflat : key.startsWith "$" = false) (value : Value) :
    ofField key value = .ok [(key, .ofValue value)] := by
  have hbucket : ∀ bucket : String, bucket.startsWith "$" = true → key ≠ bucket := by
    rintro bucket hbucket rfl
    rw [hflat] at hbucket
    exact Bool.false_ne_true hbucket
  simp only [ofField, hbucket "$SET" (by simp), hbucket "$ADD" (by simp),
    hbucket "$DELETE" (by simp), hbucket "$REMOVE" (by simp), hflat, if_false,
    Bool.false_eq_true, ofValue]
  split <;> rfl

theorem ofDocument_of_flat {update : Document}
    (hflat : ∀ entry ∈ update, entry.1.startsWith "$" = false) :
    ofDocument update = .ok (update.map fun entry => (entry.1, ofValue entry.2)) := by
  have hfields : update.mapM (fun entry => ofField entry.1 entry.2) =
      .ok (update.map fun entry => [(entry.1, ofValue entry.2)]) := by
    rw [Except.mapM_eq_ok, List.forall₂_map_right_iff, List.forall₂_same]
    exact fun entry hentry => ofField_of_flat (hflat entry hentry) entry.2
  rw [ofDocument]
  show (update.mapM (fun entry => ofField entry.1 entry.2) >>= _) = _
  rw [hfields]
  show Except.ok _ = _
  rw [← List.flatMap_def, ← List.map_eq_flatMap]

end Request

/-! ## Nothing is implied -/

theorem Pipeline.mapM_eq_pure {step : α → Pipeline σ α} {items : List α}
    (hstep : ∀ item ∈ items, step item = pure item) : items.mapM step = pure items := by
  induction items with
  | nil => rfl
  | cons item rest ih =>
      have hrest := ih fun other hother => hstep other (by simp [hother])
      rw [List.mapM_cons, hstep item (by simp), hrest]
      simp

namespace Change

variable {change : Change σ} {value : Value}

/-- A flattened update does not ask for defaults. -/
theorem restoreDefault_plain (setting : Setting σ) (current : Document)
    (hrequest : change.request = .ofValue value) :
    change.restoreDefault setting.writing current = pure change := by
  have hrequired : setting.writing.options.required = .off := rfl
  unfold restoreDefault
  split
  case h_1 restores field hremove hfield =>
    obtain rfl : restores = false := by
      rw [hrequest, Request.ofValue] at hremove
      split at hremove <;> simp_all
    simp [hrequired]
  case h_2 => rfl

theorem prepare_plain (setting : Setting σ) (change : Change σ) :
    change.prepare setting.writing = pure change := by
  have hrequired : setting.writing.options.required = .off := rfl
  have hmodifiers : setting.writing.options.modifiers = false := rfl
  have hcheck : ∀ (field : Attribute σ) value path,
      checkValue setting.writing.options field value path = (pure () : Pipeline σ Unit) :=
    fun _ _ _ => rfl
  unfold prepare
  split
  case h_1 given field hset hfield =>
    simp [hrequired, hmodifiers, hcheck, ← hset]
  case h_2 => rfl

end Change

namespace Scope

variable {scope : Scope σ}

theorem allChanges_plain (setting : Setting σ) (current : Document)
    (requested : List (Change σ)) :
    scope.allChanges setting.writing current requested = pure requested := by
  have hforced : setting.writing.options.forceDefaults = false := rfl
  have hcombine : setting.writing.options.combine = false := rfl
  have htime : scope.updateTime? setting.writing requested = .ok none := by
    have hoff : setting.writing.options.timestamps = .off := rfl
    unfold updateTime?
    split
    · rfl
    · simp [hoff]
  have hnone : (Pipeline.ofExcept (.ok none) : Pipeline σ (Option (Change σ))) = pure none := rfl
  simp [allChanges, hforced, hcombine, htime, hnone]

theorem of_change_request {path : String} {request : Request} {change : Change σ}
    (hchange : scope.change path request = .ok change) :
    change.path = path ∧ change.request = request ∧ scope.lookup path = .ok change.target := by
  rw [Scope.change, Except.bind_eq_ok] at hchange
  obtain ⟨target, hlookup, hchange⟩ := hchange
  split at hchange
  · split at hchange
    · simp at hchange
    · obtain rfl := Except.ok.inj hchange
      exact ⟨rfl, rfl, hlookup⟩
  · obtain rfl := Except.ok.inj hchange
    exact ⟨rfl, rfl, hlookup⟩

/-- With the plain options every stage between the requests and the actions leaves the changes as they
are, unless they ask for defaults. -/
theorem yields_updateActions_of_requested (setting : Setting σ) {current update : Document}
    {requested : List (Change σ)} (hrequested : scope.requestedChanges update = .ok requested)
    (hkept : ∀ change ∈ requested,
      change.restoreDefault setting.writing current = pure change)
    {before after : σ} {actions : List Action} :
    Yields (scope.updateActions setting.writing current update) before actions after ↔
      Yields (requested.mapM (Change.action scope setting.writing current))
        before actions after := by
  have hrequests : (Pipeline.ofExcept (scope.requestedChanges update) :
      Pipeline σ (List (Change σ))) = pure requested := by
    rw [hrequested]
    rfl
  simp only [updateActions, hrequests, mapM_eq_pure hkept,
    mapM_eq_pure fun change _ => Change.prepare_plain setting change, allChanges_plain, pure_bind]

/-- With the plain options the actions of a flattened update are those of its own changes. -/
theorem yields_updateActions_plain (setting : Setting σ) {current update : Document}
    {before after : σ} {actions : List Action}
    (hflat : ∀ entry ∈ update, entry.1.startsWith "$" = false) :
    Yields (scope.updateActions setting.writing current update) before actions after ↔
      ∃ requested, List.Forall₂ (fun entry change =>
          scope.change entry.1 (.ofValue entry.2) = .ok change) update requested ∧
        Yields (requested.mapM (Change.action scope setting.writing current))
          before actions after := by
  have hrequests : ∀ requested, scope.requestedChanges update = .ok requested ↔
      List.Forall₂ (fun entry change => scope.change entry.1 (.ofValue entry.2) = .ok change)
        update requested := by
    intro requested
    rw [requestedChanges, Request.ofDocument_of_flat hflat]
    show (update.map fun entry => (entry.1, Request.ofValue entry.2)).mapM _ = _ ↔ _
    rw [Except.mapM_eq_ok, List.forall₂_map_left_iff]
  have hkept : ∀ requested, scope.requestedChanges update = .ok requested →
      ∀ change ∈ requested, change.restoreDefault setting.writing current = pure change := by
    intro requested hrequested change hchange
    obtain ⟨entry, -, hmade⟩ := exists_related_right ((hrequests requested).mp hrequested) hchange
    exact Change.restoreDefault_plain setting current (of_change_request hmade).2.1
  simp only [← hrequests]
  constructor
  · intro hrun
    obtain ⟨requested, _, hstart, -⟩ := yields_bind.mp hrun
    obtain ⟨hrequested, -⟩ := yields_ofExcept.mp hstart
    exact ⟨requested, hrequested, (yields_updateActions_of_requested setting hrequested
      (hkept requested hrequested)).mp hrun⟩
  · rintro ⟨requested, hrequested, hrun⟩
    exact (yields_updateActions_of_requested setting hrequested
      (hkept requested hrequested)).mpr hrun

end Scope

/-! ## Actions of assignments -/

theorem Value.writerTo_eq (writing : Writing) (depth : Nat) (value : Value) :
    Value.writerTo (σ := σ) writing depth value =
      value.writer (Value.madeDraft writing depth) writing := by
  cases depth <;> rfl

theorem Value.madeDraft_value (writing : Writing) (depth : Nat) (value : Value) :
    (value.madeDraft writing depth : Draft σ).value = value := by
  cases depth <;> rfl

/-- The setting that a whole document is written in. -/
def Setting.outermost (now : Instant) (depth : Nat) : Setting σ :=
  ⟨Value.madeDraft ⟨.plain, now, depth⟩ depth, now, depth⟩

/-- An update assigns this to an attribute: what the value is converted to, or its natural form if
the attribute is undeclared. -/
def Scope.AssignsAs (scope : Scope σ) (path : String) (types : Option (List (CandidateType σ)))
    (value : Value) (stored : Option WireValue) : Prop :=
  match types with
  | some types => value.ConvertsTo scope (.ofText path) types stored
  | none => value.natural? = stored

theorem Scope.AssignsAs.unique {scope : Scope σ} {path : String}
    {types : Option (List (CandidateType σ))} {value : Value} {stored other : Option WireValue}
    (before : σ) (hstored : scope.AssignsAs path types value stored)
    (hother : scope.AssignsAs path types value other) : stored = other := by
  cases types with
  | none => exact hstored.symm.trans hother
  | some types => exact Value.ConvertsTo.unique before hstored hother

/-- The undefined value is assigned by removing the attribute. -/
theorem Scope.assignsAs_undefined (scope : Scope σ) (path : String)
    (types : Option (List (CandidateType σ))) : scope.AssignsAs path types .undefined none := by
  cases types with
  | none => rfl
  | some types =>
      intro setting before
      simp [Value.writer]

theorem Change.yields_assignment_plain {scope : Scope σ} {change : Change σ} {value : Value}
    {now : Instant} {depth : Nat} {before after : σ} {action : Action} :
    Yields (change.assignment scope ⟨.plain, now, depth⟩ value) before action after ↔
      before = after ∧ ∃ stored, action = .ofStored change.target.segments stored ∧
        scope.AssignsAs change.path change.target.types value stored := by
  unfold assignment Scope.AssignsAs
  cases change.target.types with
  | none =>
      simp only [pure_bind]
      cases value.natural? <;> simp [Action.ofStored, eq_comm, and_comm]
  | some types =>
      rw [Value.writerTo_eq]
      constructor
      · intro hrun
        obtain ⟨stored, between, hwrite, hrest⟩ := yields_bind.mp hrun
        obtain ⟨rfl, hconverts⟩ := Value.convertsTo_of_yields (.outermost now depth) hwrite
        cases stored with
        | none =>
            obtain ⟨rfl, rfl⟩ := yields_pure.mp hrest
            exact ⟨rfl, none, rfl, hconverts⟩
        | some operand =>
            obtain ⟨rfl, rfl⟩ := yields_pure.mp hrest
            exact ⟨rfl, some operand, rfl, hconverts⟩
      · rintro ⟨rfl, stored, rfl, hconverts⟩
        refine (hconverts (.outermost now depth) before).bind ?_
        cases stored <;> simp [Action.ofStored]

theorem Change.yields_action_plain {scope : Scope σ} {current : Document} {change : Change σ}
    {value : Value} {now : Instant} {depth : Nat} {before after : σ} {action : Action}
    (hrequest : change.request = .ofValue value) :
    Yields (change.action scope ⟨.plain, now, depth⟩ current) before action after ↔
      before = after ∧ ∃ stored, action = .ofStored change.target.segments stored ∧
        scope.AssignsAs change.path change.target.types value stored := by
  unfold Change.action
  rw [hrequest, Request.ofValue]
  cases hdefined : value.isUndefined with
  | false => exact change.yields_assignment_plain
  | true =>
      obtain rfl := Value.eq_undefined hdefined
      have hnone := scope.assignsAs_undefined change.path change.target.types
      rw [if_pos rfl, yields_pure]
      constructor
      · rintro ⟨rfl, rfl⟩
        exact ⟨rfl, none, rfl, hnone⟩
      · rintro ⟨rfl, stored, rfl, hstored⟩
        rw [hstored.unique before hnone]
        exact ⟨rfl, rfl⟩

end ItemMapper
