import ItemMapper.Proofs.Place
import ItemMapper.Proofs.Typing.Moved

/-!
# Inside of references and at the top

Patterns are counted from the document that their schema belongs to, so they see the same of a
document whether it is the outermost one or stands behind a reference (`Scope.SeesAlike.of_key`).  The keys
before the reference are cut off again, for which they have to leave a trace in the text of the place,
and the first key after it must not be empty, as it would leave none at the top.

Hash keys are the exception.  A value that stands for one is looked at from the outermost document on.
This can be told by patterns only if the key may be a list, which may hold documents, and its model
keeps undeclared data by patterns.  `Scope.Portable` rules this out, and then all values can be moved
(`Scope.Portable.moves`).
-/

namespace ItemMapper

variable {σ : Type}

/-- The patterns of a scope see the same at both places and below, and both leave a trace. -/
structure Scope.SeesAlike (scope : Scope σ) (near far : Place) : Prop where
  nearText : near.text ≠ ""
  farText : far.text ≠ ""
  sees : ∀ keys, scope.unknownMatch ⟨near.outer, near.inner ++ keys⟩ =
    scope.unknownMatch ⟨far.outer, far.inner ++ keys⟩

namespace Scope.SeesAlike

variable {scope : Scope σ} {near far : Place}

theorem unknownMatch (halike : scope.SeesAlike near far) :
    scope.unknownMatch near = scope.unknownMatch far := by
  have hhere := halike.sees []
  simpa only [List.append_nil] using hhere

theorem child (halike : scope.SeesAlike near far) (key : String) :
    scope.SeesAlike (near.child key) (far.child key) where
  nearText := by rw [Place.text_child]; exact Place.extend_ne_empty halike.nearText key
  farText := by rw [Place.text_child]; exact Place.extend_ne_empty halike.farText key
  sees keys := by
    simp only [Place.child, List.append_assoc]
    exact halike.sees ([key] ++ keys)

/-- From a reference on all patterns see the same. -/
theorem enter (halike : scope.SeesAlike near far) (inner : Scope σ) :
    inner.SeesAlike near.enter far.enter where
  nearText := by rw [Place.text_enter]; exact halike.nearText
  farText := by rw [Place.text_enter]; exact halike.farText
  sees keys := by
    have hnear : (⟨near.enter.outer, near.enter.inner ++ keys⟩ : Place).Counted :=
      .inl halike.nearText
    have hfar : (⟨far.enter.outer, far.enter.inner ++ keys⟩ : Place).Counted := .inl halike.farText
    rw [Scope.unknownMatch, Scope.unknownMatch, Place.segments_eq hnear, Place.segments_eq hfar]
    rfl

/-- Without patterns nothing is told apart. -/
theorem restart (halike : scope.SeesAlike near far) {inner : Scope σ}
    (hkeep : ∀ patterns, inner.root.keepUnknown ≠ .matching patterns) :
    inner.SeesAlike near.restart far.restart where
  nearText := by rw [Place.text_restart]; exact halike.nearText
  farText := by rw [Place.text_restart]; exact halike.farText
  sees keys := by
    rw [Scope.unknownMatch, Scope.unknownMatch]
    cases hroot : inner.root.keepUnknown with
    | matching patterns => exact absurd hroot (hkeep patterns)
    | _ => rfl

/-- A field of the outermost document and the same one behind a reference. -/
theorem of_key {place : Place} (hplace : place.text ≠ "") {key : String} (hkey : key ≠ "")
    (scope : Scope σ) : scope.SeesAlike (Place.root.child key) (place.enter.child key) where
  nearText := by
    rw [Place.text_child, Place.extend, if_pos (by rfl)]
    exact hkey
  farText := by
    rw [Place.text_child, Place.text_enter]
    exact Place.extend_ne_empty hplace key
  sees keys := by
    have hnear : (⟨[], [key] ++ keys⟩ : Place).Counted := .inr ⟨rfl, fun hhead =>
      hkey (Option.some.inj hhead)⟩
    have hfar : (⟨place.outer ++ place.inner, [key] ++ keys⟩ : Place).Counted := .inl hplace
    have hsegments : Place.segments ⟨[], [key] ++ keys⟩ =
        Place.segments ⟨place.outer ++ place.inner, [key] ++ keys⟩ := by
      rw [Place.segments_eq hnear, Place.segments_eq hfar]
    exact congrArg scope.root.keepUnknown.matchSegments hsegments

end Scope.SeesAlike

/-- A schema whose documents mean the same inside of references.  It has been built, as have those
that it leads to, and no model with a hash key that may be a list keeps undeclared data by
patterns. -/
structure Scope.Portable (start : Scope σ) : Prop where
  wellFormed : start.root.WellFormed
  scalarSets : ∀ scope element, start.Uses scope (.set element) → element.isSetElement = true
  keys : ∀ scope name model field elements, start.Uses scope (.model name) →
    scope.registry.find? name = some model → model.schema.hashKey? = some field →
      .array elements ∈ field.types → ∀ patterns, model.schema.keepUnknown ≠ .matching patterns

theorem Scope.Portable.moves {start : Scope σ} (hportable : start.Portable) :
    start.reach.Moves Scope.SeesAlike where
  child := SeesAlike.child
  enter := SeesAlike.enter
  restart halike _ _ _ _ _ huses hmodel hkey htype :=
    halike.restart (hportable.keys _ _ _ _ _ huses hmodel hkey htype)
  unknownMatch halike _ _ := halike.unknownMatch
  scalarSets := hportable.scalarSets _ _

end ItemMapper
