import ItemMapper.AttributePath
import ItemMapper.Coding.Unknown
import ItemMapper.Proofs.Coding.Members
import ItemMapper.Proofs.Place
import ItemMapper.Proofs.Schema.KeepUnknown

/-!
# The leaves of undeclared data

What patterns keep of an undeclared value is decided leaf by leaf.  `Value.leaves` lists the leaves
of a value with their paths, which are made of keys and positions in lists.  Writing keeps just the
leaves whose dotted path is allowed, in the same order and under the same keys
(`Value.leaves_keep?`), and so does reading (`WireValue.leaves_keep?`).  Only the positions in lists
change, where an item before is left out.

The walk cuts off a map or list whose own path is outside of all patterns, and drops one that is
above them when nothing in it was kept.  Neither loses a leaf: below a path outside of the patterns
everything is outside.
-/

namespace ItemMapper

variable {σ α β : Type}

/-! ## Paths of leaves -/

namespace Segment

/-- A step as dotted paths show it. -/
def text : Segment → String
  | .name text => text
  | .index position => toString position

/-- The key that a step names, none for a position in a list. -/
def key? : Segment → Option String
  | .name text => some text
  | .index _ => none

/-- The dotted text of a path. -/
def dotted (path : List Segment) : String :=
  Dotted.join (path.map text)

/-- Where a path leads in an undeclared part of the outermost document. -/
def place (path : List Segment) : Place :=
  ⟨[], path.map text⟩

theorem place_name (path : List Segment) (key : String) :
    (place path).child key = place (path ++ [.name key]) := by
  simp [place, Place.child, text]

theorem place_index (path : List Segment) (index : Nat) :
    (place path).item index = place (path ++ [.index index]) := by
  simp [place, Place.item, Place.child, text]

theorem keys_append_name {path far : List Segment} (hfar : path.map key? = far.map key?)
    (key : String) :
    (path ++ [Segment.name key]).map key? = (far ++ [Segment.name key]).map key? := by
  rw [List.map_append, List.map_append, hfar]

/-- Positions do not count. -/
theorem keys_append_index {path far : List Segment} (hfar : path.map key? = far.map key?)
    (index position : Nat) :
    (path ++ [Segment.index index]).map key? = (far ++ [Segment.index position]).map key? := by
  rw [List.map_append, List.map_append, hfar]
  rfl

end Segment

/-- Leaves with the keys that lead to them; positions in lists are left open. -/
def unplaced (leaves : List (List Segment × α)) : List (List (Option String) × α) :=
  leaves.map fun leaf => (leaf.1.map Segment.key?, leaf.2)

/-- The leaves whose dotted path is kept. -/
def KeepUnknown.allowed (keep : KeepUnknown) (leaves : List (List Segment × α)) :
    List (List Segment × α) :=
  leaves.filter fun leaf => keep.allows (Segment.dotted leaf.1)

mutual

/-- The leaves at and below a path, in order: all that is no map, list or set and not undefined. -/
def Value.leaves (path : List Segment) : Value → List (List Segment × Value)
  | .map fields => Value.leavesOfFields path fields
  | .list items => Value.leavesOfItems path 0 items
  | .set _ | .undefined => []
  | leaf => [(path, leaf)]

def Value.leavesOfItems (path : List Segment) :
    Nat → List Value → List (List Segment × Value)
  | _, [] => []
  | index, item :: rest =>
    Value.leaves (path ++ [.index index]) item ++ Value.leavesOfItems path (index + 1) rest

def Value.leavesOfFields (path : List Segment) :
    List (String × Value) → List (List Segment × Value)
  | [] => []
  | (key, value) :: rest =>
    Value.leaves (path ++ [.name key]) value ++ Value.leavesOfFields path rest

end

mutual

/-- The stored scalars at and below a path, in order. -/
def WireValue.leaves (path : List Segment) : WireValue → List (List Segment × WireValue)
  | .map fields => WireValue.leavesOfFields path fields
  | .list items => WireValue.leavesOfItems path 0 items
  | .stringSet _ | .numberSet _ | .binarySet _ => []
  | leaf => [(path, leaf)]

def WireValue.leavesOfItems (path : List Segment) :
    Nat → List WireValue → List (List Segment × WireValue)
  | _, [] => []
  | index, item :: rest =>
    WireValue.leaves (path ++ [.index index]) item ++ WireValue.leavesOfItems path (index + 1) rest

def WireValue.leavesOfFields (path : List Segment) :
    List (String × WireValue) → List (List Segment × WireValue)
  | [] => []
  | (key, stored) :: rest =>
    WireValue.leaves (path ++ [.name key]) stored ++ WireValue.leavesOfFields path rest

end

/-! ## Outside of the patterns -/

namespace Segment

variable {keep : KeepUnknown} {path : List Segment}

/-- A path whose first step is a key with a text. -/
def Starts (path : List Segment) : Prop :=
  path ≠ [] ∧ (path.map text).head? ≠ some ""

theorem Starts.append (hstarts : Starts path) (more : List Segment) : Starts (path ++ more) := by
  obtain ⟨hne, hhead⟩ := hstarts
  refine ⟨by simp [hne], ?_⟩
  rwa [List.map_append, List.head?_append_of_ne_nil _ (by simpa using hne)]

theorem unknownMatch_place (hstarts : Starts path) (scope : Scope σ) :
    scope.unknownMatch (place path) =
      scope.root.keepUnknown.matchSegments (Dotted.split (dotted path)) := by
  rw [Scope.unknownMatch, Place.segments_eq (.inr ⟨rfl, hstarts.2⟩), place, dotted]

theorem unknownMatch_eq_full_iff (hstarts : Starts path) (scope : Scope σ) :
    scope.unknownMatch (place path) = .full ↔ scope.root.keepUnknown.allows (dotted path) = true := by
  rw [unknownMatch_place hstarts, KeepUnknown.allows, decide_eq_true_iff]

theorem unknownMatch_child_of_outside (hstarts : Starts path) {scope : Scope σ}
    (houtside : scope.unknownMatch (place path) = .outside) (key : String) :
    scope.unknownMatch ((place path).child key) = .outside := by
  rw [unknownMatch_place hstarts] at houtside
  rw [place_name, unknownMatch_place (hstarts.append _), dotted, List.map_append]
  obtain ⟨below, hbelow⟩ := Dotted.split_join_append
    (fun hnil => hstarts.1 (List.map_eq_nil_iff.mp hnil)) ([Segment.name key].map text)
  rw [hbelow]
  exact KeepUnknown.matchSegments_append houtside below

end Segment

/-- A list or map that is kept as far as something in it is kept has the leaves that were kept. -/
theorem elim_container {matched : PathMatch} {kept : List α} (wrap : List α → β) {γ : Type}
    {view : β → List γ} (hempty : view (wrap []) = []) (houtside : matched = .outside → kept = []) :
    (if matched = .full || (matched = .above && !kept.isEmpty) then some (wrap kept)
      else none).elim [] view = view (wrap kept) := by
  cases matched with
  | full => simp
  | outside => simp [houtside rfl, hempty]
  | above => cases kept <;> simp [hempty]

namespace Value

theorem keep?_of_outside {scope : Scope σ} {place : Place}
    (houtside : scope.unknownMatch place = .outside) (value : Value) :
    value.keep? scope place = none := by
  cases value <;> simp [keep?, houtside]

theorem keepItems_of_outside {scope : Scope σ} {place : Place}
    (houtside : ∀ key, scope.unknownMatch (place.child key) = .outside) (items : List Value) :
    ∀ index, keepItems scope place index items = [] := by
  induction items with
  | nil => intro index; rfl
  | cons item rest ih =>
      intro index
      rw [keepItems, Place.item, keep?_of_outside (houtside _), ih]

theorem keepFields_of_outside {scope : Scope σ} {place : Place}
    (houtside : ∀ key, scope.unknownMatch (place.child key) = .outside)
    (fields : List (String × Value)) : keepFields scope place fields = [] := by
  induction fields with
  | nil => rfl
  | cons field rest ih => rw [keepFields, keep?_of_outside (houtside _), ih]

end Value

/-! ## Writing keeps the allowed leaves -/

/-- The allowed leaves as they are stored. -/
def KeepUnknown.storedLeaves (keep : KeepUnknown) (leaves : List (List Segment × Value)) :
    List (List (Option String) × Option WireValue) :=
  (unplaced (keep.allowed leaves)).map fun leaf => (leaf.1, leaf.2.natural?)

theorem KeepUnknown.storedLeaves_append (keep : KeepUnknown)
    (first second : List (List Segment × Value)) :
    keep.storedLeaves (first ++ second) = keep.storedLeaves first ++ keep.storedLeaves second := by
  simp only [storedLeaves, allowed, unplaced, List.filter_append, List.map_append]

/-- The leaves of a stored value at a path, as the allowed leaves are listed. -/
def WireValue.unplacedLeaves (path : List Segment) (stored : WireValue) :
    List (List (Option String) × Option WireValue) :=
  (unplaced (stored.leaves path)).map fun leaf => (leaf.1, some leaf.2)

theorem WireValue.leaves_of_setMembers? {stored : WireValue} {members : List SetMember}
    (hmembers : stored.setMembers? = some members) (path : List Segment) : stored.leaves path = [] := by
  cases stored <;> first | rfl | contradiction

/-- A scalar is kept if its own path is allowed. -/
theorem Value.leaves_keep?_scalar {scope : Scope σ} {value : Value} {stored : WireValue}
    {path far : List Segment} (hstarts : Segment.Starts path)
    (hfar : path.map Segment.key? = far.map Segment.key?)
    (hkeep : value.keep? scope (Segment.place path) =
      if scope.unknownMatch (Segment.place path) = .full then some stored else none)
    (hnatural : value.natural? = some stored) (hleaf : stored.leaves far = [(far, stored)])
    (hleaves : value.leaves path = [(path, value)]) :
    (value.keep? scope (Segment.place path)).elim [] (WireValue.unplacedLeaves far) =
      scope.root.keepUnknown.storedLeaves (value.leaves path) := by
  rw [hkeep, hleaves, KeepUnknown.storedLeaves, KeepUnknown.allowed]
  by_cases hfull : scope.unknownMatch (Segment.place path) = .full
  · rw [if_pos hfull, List.filter_singleton]
    rw [Segment.unknownMatch_eq_full_iff hstarts] at hfull
    simp [hfull, WireValue.unplacedLeaves, hleaf, unplaced, hfar, hnatural]
  · rw [if_neg hfull, List.filter_singleton]
    rw [Segment.unknownMatch_eq_full_iff hstarts] at hfull
    simp [hfull, unplaced]

mutual

theorem Value.leaves_keep? (scope : Scope σ) : ∀ (value : Value) {path far : List Segment},
    Segment.Starts path → path.map Segment.key? = far.map Segment.key? →
      (value.keep? scope (Segment.place path)).elim [] (WireValue.unplacedLeaves far) =
        scope.root.keepUnknown.storedLeaves (value.leaves path)
  | .map fields, path, far, hstarts, hfar => by
      have hfields := Value.leaves_keepFields scope fields hstarts hfar
      rw [Value.keep?, elim_container WireValue.map rfl, Value.leaves, ← hfields]
      · rfl
      · intro houtside
        exact Value.keepFields_of_outside (Segment.unknownMatch_child_of_outside hstarts houtside) fields
  | .list items, path, far, hstarts, hfar => by
      have hitems := Value.leaves_keepItems scope items 0 0 hstarts hfar
      rw [Value.keep?, elim_container WireValue.list rfl, Value.leaves, ← hitems]
      · rfl
      · intro houtside
        exact Value.keepItems_of_outside (Segment.unknownMatch_child_of_outside hstarts houtside) items 0
  | .undefined, _, _, _, _ => by
      simp only [Value.keep?]
      split <;> rfl
  | .set members, path, far, _, _ => by
      simp only [Value.keep?, Value.leaves]
      split
      · cases hnatural : (Value.set members).natural? with
        | none => rfl
        | some stored =>
            obtain ⟨_, hencodes⟩ := Value.encodes_of_natural? hnatural
            obtain ⟨_, _, hmembers, -⟩ := hencodes.members
            simp only [Option.elim, WireValue.unplacedLeaves, WireValue.leaves_of_setMembers? hmembers]
            rfl
      · rfl
  | .null, _, _, hstarts, hfar | .bool _, _, _, hstarts, hfar | .number _, _, _, hstarts, hfar
  | .string _, _, _, hstarts, hfar | .binary _, _, _, hstarts, hfar
  | .date _, _, _, hstarts, hfar => 
      Value.leaves_keep?_scalar hstarts hfar rfl rfl rfl rfl

theorem Value.leaves_keepItems (scope : Scope σ) : ∀ (items : List Value)
    {path far : List Segment} (index position : Nat), Segment.Starts path →
    path.map Segment.key? = far.map Segment.key? →
      (unplaced (WireValue.leavesOfItems far position
          (Value.keepItems scope (Segment.place path) index items))).map
            (fun leaf => (leaf.1, some leaf.2)) =
        scope.root.keepUnknown.storedLeaves (Value.leavesOfItems path index items)
  | [], _, _, _, _, _, _ => rfl
  | item :: rest, path, far, index, position, hstarts, hfar => by
      have hitem := Value.leaves_keep? scope item (hstarts.append [.index index])
        (Segment.keys_append_index hfar index position)
      have hrest := fun position => Value.leaves_keepItems scope rest (index + 1) position hstarts hfar
      rw [Value.leavesOfItems, KeepUnknown.storedLeaves_append, ← hitem, Value.keepItems,
        Segment.place_index]
      cases hkeep : item.keep? scope (Segment.place (path ++ [.index index])) with
      | none => exact hrest position
      | some stored =>
          rw [← hrest (position + 1)]
          simp only [WireValue.leavesOfItems, unplaced, List.map_append]
          rfl

theorem Value.leaves_keepFields (scope : Scope σ) : ∀ (fields : List (String × Value))
    {path far : List Segment}, Segment.Starts path → path.map Segment.key? = far.map Segment.key? →
      (unplaced (WireValue.leavesOfFields far
          (Value.keepFields scope (Segment.place path) fields))).map
            (fun leaf => (leaf.1, some leaf.2)) =
        scope.root.keepUnknown.storedLeaves (Value.leavesOfFields path fields)
  | [], _, _, _, _ => rfl
  | (key, value) :: rest, path, far, hstarts, hfar => by
      have hvalue := Value.leaves_keep? scope value (hstarts.append [.name key])
        (Segment.keys_append_name hfar key)
      have hrest := Value.leaves_keepFields scope rest hstarts hfar
      rw [Value.leavesOfFields, KeepUnknown.storedLeaves_append, ← hvalue, ← hrest,
        Value.keepFields, Segment.place_name]
      cases hkeep : value.keep? scope (Segment.place (path ++ [.name key])) with
      | none => rfl
      | some stored =>
          simp only [WireValue.leavesOfFields, unplaced, List.map_append]
          rfl

end

/-! ## Reading keeps the allowed leaves -/

namespace WireValue

theorem keep?_of_outside {scope : Scope σ} {place : Place}
    (houtside : scope.unknownMatch place = .outside) (stored : WireValue) :
    stored.keep? scope place = none := by
  cases stored <;> simp [keep?, houtside]

theorem keepItems_of_outside {scope : Scope σ} {place : Place}
    (houtside : ∀ key, scope.unknownMatch (place.child key) = .outside) (items : List WireValue) :
    ∀ index, keepItems scope place index items = [] := by
  induction items with
  | nil => intro index; rfl
  | cons item rest ih =>
      intro index
      rw [keepItems, Place.item, keep?_of_outside (houtside _), ih]

theorem keepFields_of_outside {scope : Scope σ} {place : Place}
    (houtside : ∀ key, scope.unknownMatch (place.child key) = .outside)
    (fields : List (String × WireValue)) : keepFields scope place fields = [] := by
  induction fields with
  | nil => rfl
  | cons field rest ih => rw [keepFields, keep?_of_outside (houtside _), ih]

end WireValue

/-- The allowed leaves as they are read. -/
def KeepUnknown.readLeaves (keep : KeepUnknown) (leaves : List (List Segment × WireValue)) :
    List (List (Option String) × Value) :=
  (unplaced (keep.allowed leaves)).map fun leaf => (leaf.1, leaf.2.natural)

theorem KeepUnknown.readLeaves_append (keep : KeepUnknown)
    (first second : List (List Segment × WireValue)) :
    keep.readLeaves (first ++ second) = keep.readLeaves first ++ keep.readLeaves second := by
  simp only [readLeaves, allowed, unplaced, List.filter_append, List.map_append]

/-- The leaves of a value at a path, as the allowed leaves are listed. -/
def Value.unplacedLeaves (path : List Segment) (value : Value) :
    List (List (Option String) × Value) :=
  unplaced (value.leaves path)

/-- A stored scalar is kept if its own path is allowed. -/
theorem WireValue.leaves_keep?_scalar {scope : Scope σ} {stored : WireValue}
    {path far : List Segment} (hstarts : Segment.Starts path)
    (hfar : path.map Segment.key? = far.map Segment.key?)
    (hkeep : stored.keep? scope (Segment.place path) =
      if scope.unknownMatch (Segment.place path) = .full then some stored.natural else none)
    (hleaf : stored.natural.leaves far = [(far, stored.natural)])
    (hleaves : stored.leaves path = [(path, stored)]) :
    (stored.keep? scope (Segment.place path)).elim [] (Value.unplacedLeaves far) =
      scope.root.keepUnknown.readLeaves (stored.leaves path) := by
  rw [hkeep, hleaves, KeepUnknown.readLeaves, KeepUnknown.allowed]
  by_cases hfull : scope.unknownMatch (Segment.place path) = .full
  · rw [if_pos hfull, List.filter_singleton]
    rw [Segment.unknownMatch_eq_full_iff hstarts] at hfull
    simp [hfull, Value.unplacedLeaves, hleaf, unplaced, hfar]
  · rw [if_neg hfull, List.filter_singleton]
    rw [Segment.unknownMatch_eq_full_iff hstarts] at hfull
    simp [hfull, unplaced]

mutual

theorem WireValue.leaves_keep? (scope : Scope σ) : ∀ (stored : WireValue) {path far : List Segment},
    Segment.Starts path → path.map Segment.key? = far.map Segment.key? →
      (stored.keep? scope (Segment.place path)).elim [] (Value.unplacedLeaves far) =
        scope.root.keepUnknown.readLeaves (stored.leaves path)
  | .map fields, path, far, hstarts, hfar => by
      have hfields := WireValue.leaves_keepFields scope fields hstarts hfar
      rw [WireValue.keep?, elim_container Value.map rfl, WireValue.leaves, ← hfields]
      · rfl
      · intro houtside
        exact WireValue.keepFields_of_outside
          (Segment.unknownMatch_child_of_outside hstarts houtside) fields
  | .list items, path, far, hstarts, hfar => by
      have hitems := WireValue.leaves_keepItems scope items 0 0 hstarts hfar
      rw [WireValue.keep?, elim_container Value.list rfl, WireValue.leaves, ← hitems]
      · rfl
      · intro houtside
        exact WireValue.keepItems_of_outside
          (Segment.unknownMatch_child_of_outside hstarts houtside) items 0
  | .stringSet _, _, _, _, _ | .numberSet _, _, _, _, _ | .binarySet _, _, _, _, _ => by
      simp only [WireValue.keep?]
      split <;> rfl
  | .string _, _, _, hstarts, hfar | .number _, _, _, hstarts, hfar
  | .binary _, _, _, hstarts, hfar | .boolean _, _, _, hstarts, hfar
  | .null _, _, _, hstarts, hfar => WireValue.leaves_keep?_scalar hstarts hfar rfl rfl rfl

theorem WireValue.leaves_keepItems (scope : Scope σ) : ∀ (items : List WireValue)
    {path far : List Segment} (index position : Nat), Segment.Starts path →
    path.map Segment.key? = far.map Segment.key? →
      unplaced (Value.leavesOfItems far position
          (WireValue.keepItems scope (Segment.place path) index items)) =
        scope.root.keepUnknown.readLeaves (WireValue.leavesOfItems path index items)
  | [], _, _, _, _, _, _ => rfl
  | item :: rest, path, far, index, position, hstarts, hfar => by
      have hitem := WireValue.leaves_keep? scope item (hstarts.append [.index index])
        (Segment.keys_append_index hfar index position)
      have hrest := fun position =>
        WireValue.leaves_keepItems scope rest (index + 1) position hstarts hfar
      rw [WireValue.leavesOfItems, KeepUnknown.readLeaves_append, ← hitem, WireValue.keepItems,
        Segment.place_index]
      cases hkeep : item.keep? scope (Segment.place (path ++ [.index index])) with
      | none => exact hrest position
      | some value =>
          rw [← hrest (position + 1)]
          simp only [Value.leavesOfItems, unplaced, List.map_append]
          rfl

theorem WireValue.leaves_keepFields (scope : Scope σ) : ∀ (fields : List (String × WireValue))
    {path far : List Segment}, Segment.Starts path → path.map Segment.key? = far.map Segment.key? →
      unplaced (Value.leavesOfFields far
          (WireValue.keepFields scope (Segment.place path) fields)) =
        scope.root.keepUnknown.readLeaves (WireValue.leavesOfFields path fields)
  | [], _, _, _, _ => rfl
  | (key, stored) :: rest, path, far, hstarts, hfar => by
      have hstored := WireValue.leaves_keep? scope stored (hstarts.append [.name key])
        (Segment.keys_append_name hfar key)
      have hrest := WireValue.leaves_keepFields scope rest hstarts hfar
      rw [WireValue.leavesOfFields, KeepUnknown.readLeaves_append, ← hstored, ← hrest,
        WireValue.keepFields, Segment.place_name]
      cases hkeep : stored.keep? scope (Segment.place (path ++ [.name key])) with
      | none => rfl
      | some value =>
          simp only [Value.leavesOfFields, unplaced, List.map_append]
          rfl

end

end ItemMapper
