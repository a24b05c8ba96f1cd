import ItemMapper.Expression.Predicate
import ItemMapper.Proofs.Registration.Marshal
import ItemMapper.Proofs.Update.Fitting

/-!
# Expressions over another registry

A path that is followed through types that two registries share leads to the same target, or to
the same error (`Scope.lookup_rebase`), and its end has shared types again
(`Scope.within_of_lookup`).  So conditions and updates are compiled to the same expressions
(`Scope.compileCondition_rebase`, `Scope.compileUpdate_rebase`).

Each change of an update is one whose path has been followed, through all stages of the update
(`Change.Within`); only the last stage, which makes the actions, encodes any values.
-/

namespace ItemMapper

variable {σ : Type}

open Pipeline

variable {registry other : Registry σ} {types : CandidateType σ → Prop} {scope : Scope σ}
  {candidates : List (CandidateType σ)}

/-! ## Paths -/

/-- The end of a path has types that are among the given ones, if it is declared. -/
def ResolvedPath.Within (target : ResolvedPath σ) (types : CandidateType σ → Prop) : Prop :=
  ∀ candidates, target.types = some candidates → ∀ type ∈ candidates, types type

namespace PathPosition

def rebase : PathPosition σ → Registry σ → PathPosition σ
  | .document frame, other => .document (frame.rebase other)
  | .value scope place candidates, other => .value (scope.rebase other) place candidates

/-- A position in a document, or at a value, of some types. -/
inductive In (registry : Registry σ) (types : CandidateType σ → Prop) : PathPosition σ → Prop
  | document {frame : Frame σ} (hframe : frame.In registry types) :
      In registry types (.document frame)
  | value {scope : Scope σ} {place : Place} {candidates : List (CandidateType σ)}
      (hscope : scope.In registry types) (htypes : ∀ type ∈ candidates, types type) :
      In registry types (.value scope place candidates)

variable (hshares : registry.Shares other types)

include hshares

theorem elementTypes_within (htypes : ∀ type ∈ candidates, types type) :
    ∀ type ∈ elementTypes candidates, types type := by
  intro type htype
  obtain ⟨array, harray, hmem⟩ := List.mem_flatMap.mp htype
  split at hmem
  · exact hshares.element (htypes _ harray) type hmem
  · cases hmem

section Descend

variable (hscope : scope.In registry types) (htypes : ∀ type ∈ candidates, types type)

include hscope htypes

theorem descend?_rebase (place : Place) (part : String) :
    descend? (scope.rebase other) place candidates part =
      (descend? scope place candidates part).map (·.rebase other) := by
  have hframes : candidates.filterMap ((scope.rebase other).enter? place) =
      (candidates.filterMap (scope.enter? place)).map (·.rebase other) := by
    rw [List.map_filterMap]
    exact List.filterMap_congr fun type htype =>
      Scope.enter?_rebase hshares hscope (htypes type htype) place
  rw [descend?, descend?, hframes, List.find?_map, List.head?_map, Option.map_or]
  rfl

theorem in_of_descend? {place : Place} {part : String} {frame : Frame σ}
    (hframe : descend? scope place candidates part = some frame) : frame.In registry types := by
  have hmem : frame ∈ candidates.filterMap (scope.enter? place) := by
    rw [descend?, Option.or_eq_some_iff] at hframe
    rcases hframe with hfound | ⟨-, hfirst⟩
    · exact List.mem_of_find?_eq_some hfound
    · exact List.mem_of_head? hfirst
  obtain ⟨type, htype, henter⟩ := List.mem_filterMap.mp hmem
  exact Scope.in_of_enter? hshares hscope (htypes type htype) henter

end Descend

/-- A path is followed in the same way from the same position over both registries, to types that
are shared again. -/
theorem follow_rebase (path : String) (parts : List String) :
    ∀ {position : PathPosition σ} {segments : List Segment} {last : Option (Attribute σ)},
      position.In registry types →
        follow path parts (position.rebase other) segments last =
            follow path parts position segments last ∧
          ∀ target, follow path parts position segments last = .ok target →
            target.Within types := by
  induction parts with
  | nil =>
      intro position segments last hposition
      cases hposition with
      | document hframe =>
          refine ⟨rfl, ?_⟩
          rintro _ ⟨⟩ _ ⟨⟩
      | value hscope htypes =>
          refine ⟨rfl, ?_⟩
          rintro _ ⟨⟩ _ ⟨⟩
          exact htypes
  | cons part rest ih =>
      have hdocument : ∀ {frame : Frame σ} {segments : List Segment}
          {last : Option (Attribute σ)}, frame.In registry types →
            follow path (part :: rest) (.document (frame.rebase other)) segments last =
                follow path (part :: rest) (.document frame) segments last ∧
              ∀ target, follow path (part :: rest) (.document frame) segments last = .ok target →
                target.Within types := by
        intro frame segments last hframe
        simp only [follow, Frame.rebase]
        split
        · exact ⟨rfl, by rintro _ ⟨⟩⟩
        cases hfield : frame.schema.nativeAttribute? part with
        | some field => exact ih (.value hframe.scope (hframe.schema.nativeAttribute? hfield))
        | none =>
            refine ⟨rfl, fun target hfollow => ?_⟩
            dsimp only at hfollow
            split at hfollow
            · obtain rfl := Except.ok.inj hfollow
              rintro _ ⟨⟩
            · cases hfollow
      intro position segments last hposition
      cases hposition with
      | document hframe => exact hdocument hframe
      | @value scope place candidates hscope htypes =>
          by_cases hpart : part = ""
          · simp [follow, hpart]
          cases hindex : Decimal.parseIndex? part with
          | some index =>
              have helements := elementTypes_within hshares htypes
              simp only [follow, rebase, hpart, if_false, hindex]
              cases hnext : elementTypes candidates with
              | nil => exact ⟨rfl, by rintro _ ⟨⟩⟩
              | cons first more => exact ih (.value hscope (hnext ▸ helements))
          | none =>
              have hdescend := descend?_rebase hshares hscope htypes place part
              cases hframe : descend? scope place candidates part with
              | none => simp [follow, rebase, hpart, hindex, hdescend, hframe]
              | some frame =>
                  have hinside := in_of_descend? hshares hscope htypes hframe
                  simpa only [follow, rebase, hpart, if_false, hindex, hdescend, hframe,
                    Option.map_some] using hdocument hinside

end PathPosition

namespace Scope

section Lookup

variable (hshares : registry.Shares other types) (hscope : scope.In registry types)

include hscope

theorem in_frame : scope.frame.In registry types :=
  ⟨hscope, hscope.root⟩

include hshares

/-- A path leads to the same target over both registries. -/
theorem lookup_rebase (path : String) : (scope.rebase other).lookup path = scope.lookup path :=
  (PathPosition.follow_rebase hshares path _ (.document (in_frame hscope))).1

theorem within_of_lookup {path : String} {target : ResolvedPath σ}
    (hlookup : scope.lookup path = .ok target) : target.Within types :=
  (PathPosition.follow_rebase hshares path _ (.document (in_frame hscope))).2 target hlookup

/-! ## Conditions -/

omit hscope in
theorem memberTypes_within (htypes : ∀ type ∈ candidates, types type) :
    ∀ type ∈ CandidateType.memberTypes candidates, types type := by
  intro type hmember
  obtain ⟨whole, hwhole, hmem⟩ := List.mem_flatMap.mp hmember
  split at hmem
  · obtain rfl := List.mem_singleton.mp hmem
    exact hshares.member (htypes _ hwhole)
  · exact hshares.element (htypes _ hwhole) type hmem
  · obtain rfl := List.mem_singleton.mp hmem
    exact htypes _ hwhole

theorem operand_rebase {candidates : Option (List (CandidateType σ))}
    (htypes : ∀ given, candidates = some given → ∀ type ∈ given, types type) (path : String)
    (value : Value) :
    (scope.rebase other).operand path candidates value = scope.operand path candidates value := by
  cases candidates with
  | none => rfl
  | some given => simp only [operand, encode_rebase hshares hscope (htypes given rfl)]

theorem test_rebase (comparison : Comparison) :
    (scope.rebase other).test comparison = scope.test comparison := by
  rw [test, test, lookup_rebase hshares hscope]
  refine Except.bind_congr_of_ok fun target hlookup => ?_
  have hwithin := within_of_lookup hshares hscope hlookup
  have htypes : ∀ given,
      (if comparison.op.isMembership then target.types.map CandidateType.memberTypes
        else target.types) = some given → ∀ type ∈ given, types type := by
    intro given hgiven
    split at hgiven
    · obtain ⟨declared, hdeclared, rfl⟩ := Option.map_eq_some_iff.mp hgiven
      exact memberTypes_within hshares (hwithin declared hdeclared)
    · exact hwithin given hgiven
  exact congrArg (· >>= _) (mapM_congr fun value _ =>
    operand_rebase hshares hscope htypes comparison.path value)

end Lookup

mutual

theorem predicate?_rebase (hshares : registry.Shares other types)
    (hscope : scope.In registry types) : ∀ node : ConditionNode,
      (scope.rebase other).predicate? node = scope.predicate? node
  | .comparison comparison => by rw [predicate?, predicate?, test_rebase hshares hscope]
  | .group children joiners => by
      rw [predicate?, predicate?, predicates_rebase hshares hscope children]

theorem predicates_rebase (hshares : registry.Shares other types)
    (hscope : scope.In registry types) : ∀ nodes : List ConditionNode,
      (scope.rebase other).predicates nodes = scope.predicates nodes
  | [] => rfl
  | node :: rest => by
      rw [predicates, predicates, predicate?_rebase hshares hscope node,
        predicates_rebase hshares hscope rest]

end

/-- A condition is compiled to the same expression. -/
theorem compileCondition_rebase (hshares : registry.Shares other types)
    (hscope : scope.In registry types) (condition : Condition) :
    (scope.rebase other).compileCondition condition = scope.compileCondition condition := by
  simp only [compileCondition, chain?, predicates_rebase hshares hscope]

end Scope

/-! ## Changes -/

/-- The target of a change has types that are among the given ones, if it is declared. -/
def Change.Within (change : Change σ) (types : CandidateType σ → Prop) : Prop :=
  change.target.Within types

namespace Scope

variable {writing : Writing} {current : Document} {requested changes : List (Change σ)}

section Changes

variable (hshares : registry.Shares other types) (hscope : scope.In registry types)

include hshares hscope

theorem requestedChanges_rebase (update : Document) :
    (scope.rebase other).requestedChanges update = scope.requestedChanges update := by
  have hchange : (scope.rebase other).change = scope.change := by
    funext path request
    rw [change, change, lookup_rebase hshares hscope]
    rfl
  rw [requestedChanges, requestedChanges, hchange]

theorem assign_rebase : (scope.rebase other).assign = scope.assign := by
  funext path value
  rw [assign, assign, lookup_rebase hshares hscope]

theorem forcedDefault?_rebase (requested : List (Change σ)) (field : Attribute σ) :
    (scope.rebase other).forcedDefault? writing current requested field =
      scope.forcedDefault? writing current requested field := by
  rw [forcedDefault?, forcedDefault?, assign_rebase hshares hscope]
  rfl

theorem updateTime?_rebase (requested : List (Change σ)) :
    (scope.rebase other).updateTime? writing requested = scope.updateTime? writing requested := by
  rw [updateTime?, updateTime?, assign_rebase hshares hscope]
  rfl

theorem recombine_rebase :
    (scope.rebase other).recombine current = scope.recombine current := by
  funext changes field
  rw [recombine, recombine, assign_rebase hshares hscope, lookup_rebase hshares hscope]
  rfl

theorem allChanges_rebase (requested : List (Change σ)) :
    (scope.rebase other).allChanges writing current requested =
      scope.allChanges writing current requested := by
  have hdefaults : (scope.rebase other).forcedDefault? writing current requested =
      scope.forcedDefault? writing current requested :=
    funext fun field => forcedDefault?_rebase hshares hscope requested field
  rw [allChanges, allChanges, hdefaults, updateTime?_rebase hshares hscope,
    recombine_rebase hshares hscope]
  rfl

/-- All changes of an update have targets that are followed through shared types. -/
theorem within_of_allChanges (hrequested : ∀ change ∈ requested, change.Within types)
    {before after : σ}
    (hrun : Yields (scope.allChanges writing current requested) before changes after) :
    ∀ change ∈ changes, change.Within types := by
  intro change hchange
  rcases derives_of_yields_allChanges hrun change hchange with hgiven | hderives
  · exact hrequested change hgiven
  · exact within_of_lookup hshares hscope (lookup_of_derives hderives)

end Changes

end Scope

/-! ## Actions -/

namespace Change

variable {writing : Writing} {current : Document}

theorem within_of_prepares {requested prepared : List (Change σ)}
    (hrequested : ∀ change ∈ requested, change.Within types)
    (hprepared : List.Forall₂ Prepares requested prepared) :
    ∀ change ∈ prepared, change.Within types := by
  intro change hchange
  obtain ⟨asked, hasked, hprepares⟩ := exists_related_right hprepared hchange
  rw [Within, hprepares.target_eq]
  exact hrequested asked hasked

section Action

variable (hshares : registry.Shares other types) (hscope : scope.In registry types)
  {change : Change σ} (hchange : change.Within types)

include hshares hscope hchange

theorem addition_rebase (value : Value) :
    change.addition (scope.rebase other) current value = change.addition scope current value := by
  unfold addition
  cases htypes : change.target.types with
  | none => rfl
  | some candidates =>
      have hencode : ∀ array, CandidateType.firstArray? candidates = some array →
          (Value.list value.members).encodeAs ⟨scope.rebase other, .ofText change.path, array⟩ =
            (Value.list value.members).encodeAs ⟨scope, .ofText change.path, array⟩ := by
        intro array harray
        obtain ⟨elements, rfl, hmem⟩ := CandidateType.exists_of_firstArray? harray
        exact Value.encodeAs_rebase hshares _ ⟨scope, .ofText change.path, .array elements⟩
          ⟨hscope, hchange candidates htypes _ hmem⟩
      dsimp only
      split
      · rfl
      · cases CandidateType.firstSetElement? candidates with
        | some element => rfl
        | none =>
            cases harray : CandidateType.firstArray? candidates with
            | none => rfl
            | some array => simp only [hencode array harray]

theorem assignment_rebase (value : Value) :
    change.assignment (scope.rebase other) writing value =
      change.assignment scope writing value := by
  unfold assignment
  cases htypes : change.target.types with
  | none => rfl
  | some candidates =>
      have hwrite : Value.writerTo writing writing.depth value (scope.rebase other)
            (.ofText change.path) candidates =
          Value.writerTo writing writing.depth value scope (.ofText change.path) candidates :=
        Value.sameOver_writerTo hshares writing.depth value scope _ candidates hscope
          (hchange candidates htypes)
      simp only [hwrite]

/-- A change is the same action over both registries. -/
theorem action_rebase :
    change.action (scope.rebase other) writing current = change.action scope writing current := by
  unfold action
  split
  · rfl
  · exact assignment_rebase hshares hscope hchange _
  · rw [addition_rebase hshares hscope hchange]
  · rfl

end Action

end Change

/-- An update is compiled to the same expression. -/
theorem Scope.compileUpdate_rebase (hshares : registry.Shares other types)
    (hscope : scope.In registry types) (writing : Writing) (current update : Document) :
    (scope.rebase other).compileUpdate writing current update =
      scope.compileUpdate writing current update := by
  have hactions : (scope.rebase other).updateActions writing current update =
      scope.updateActions writing current update := by
    rw [updateActions, updateActions, requestedChanges_rebase hshares hscope]
    refine bind_congr_of_yields fun requested _ _ hrequested => ?_
    refine bind_congr_of_yields fun restored _ _ hrestored => ?_
    refine bind_congr_of_yields fun prepared _ _ hprepared => ?_
    rw [allChanges_rebase hshares hscope]
    refine bind_congr_of_yields fun changes _ _ hchanges => ?_
    have hasked : ∀ change ∈ requested, change.Within types := fun change hchange =>
      within_of_lookup hshares hscope
        (of_requestedChanges (yields_ofExcept.mp hrequested).1 change hchange).1
    have hwithin := within_of_allChanges hshares hscope
      (Change.within_of_prepares hasked (Change.prepares_of_yields hrestored hprepared)) hchanges
    exact mapM_congr fun change hchange =>
      Change.action_rebase hshares hscope (hwithin change hchange)
  rw [compileUpdate, compileUpdate, hactions]

end ItemMapper
