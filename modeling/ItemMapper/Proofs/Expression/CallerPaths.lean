import ItemMapper.Proofs.Expression.Denotation
import ItemMapper.Proofs.Expression.Placeholders
import ItemMapper.Proofs.Expression.Sharing
import ItemMapper.Proofs.Schema.Patterns
import ItemMapper.Proofs.Spelling.Requests
import ItemMapper.Proofs.Update.Accounting
import ItemMapper.Proofs.Update.Append

/-!
# Compiled paths denote the paths that were given

A path stands for the steps that its parts denote (`Scope.StandsFor`), and these are what the text
of an expression shows for it once the placeholders are looked up (`CompiledExpression.Shows`).
`Mapper.paths_denote` says so of every condition and of every update that compiles.

A condition shows the paths of its comparisons in their order.  An update writes its actions clause
by clause, and adds actions of its own; but each path in its text stands for one that was requested,
or for one that the update derives.  A requested path is missing from the text only where a combined
attribute takes its place by a native name that is that of another attribute as well
(`Scope.GivesWay`).
-/

namespace ItemMapper

variable {σ : Type}

open Pipeline

/-! ## Names without dots -/

theorem Segment.dotless_map_ofUndeclared {parts : List String}
    (hparts : ∀ part ∈ parts, '.' ∉ part.toList) : Dotless (parts.map .ofUndeclared) := by
  intro label hlabel
  obtain ⟨part, hpart, hsegment⟩ := List.mem_map.mp hlabel
  rw [ofUndeclared] at hsegment
  split at hsegment
  · cases hsegment
  · obtain rfl := Segment.name.inj hsegment
    exact hparts part hpart

namespace PathPosition

/-- The document is one that is met from a scope on, or the types are used in such a document. -/
def IsMet (start : Scope σ) : PathPosition σ → Prop
  | .document frame => start.Reaches frame.scope frame.schema
  | .value scope _ types => ∀ type ∈ types, start.Uses scope type

theorem mem_elementTypes {types : List (CandidateType σ)} {type : CandidateType σ} :
    type ∈ elementTypes types ↔ ∃ elements, .array elements ∈ types ∧ type ∈ elements := by
  rw [elementTypes, List.mem_flatMap]
  constructor
  · rintro ⟨outer, houter, htype⟩
    cases outer with
    | array elements => exact ⟨elements, houter, htype⟩
    | _ => simp at htype
  · rintro ⟨elements, harray, htype⟩
    exact ⟨_, harray, htype⟩

/-- Declared names have no dots, and neither have the parts of a path. -/
theorem Denotes.dotless {start : Scope σ}
    (hbuilt : ∀ scope schema, start.Reaches scope schema → schema.WellFormed)
    {position : PathPosition σ} {parts : List String} {segments : List Segment}
    (hdenotes : position.Denotes parts segments) (hmet : position.IsMet start)
    (hparts : ∀ part ∈ parts, '.' ∉ part.toList) : Segment.Dotless segments := by
  induction hdenotes with
  | nil => simp [Segment.Dotless]
  | @declared frame field part rest segments _ hfield _ ih =>
      have hmem := SchemaOf.mem_of_nativeAttribute? hfield
      have hrest := ih (fun type htype => .attribute hmet hmem htype)
        (List.forall_mem_cons.mp hparts).2
      intro label hlabel
      rcases List.mem_cons.mp hlabel with hlabel | hlabel
      · obtain rfl := Segment.name.inj hlabel
        exact SchemaOf.plain_of_usable ((hbuilt _ _ hmet).usable field hmem)
      · exact hrest label hlabel
  | undeclared =>
      obtain ⟨hpart, hrest⟩ := List.forall_mem_cons.mp hparts
      intro label hlabel
      rcases List.mem_cons.mp hlabel with hlabel | hlabel
      · obtain rfl := Segment.name.inj hlabel
        exact hpart
      · exact Segment.dotless_map_ofUndeclared hrest label hlabel
  | @item scope place types part rest index segments _ _ _ ih =>
      have hrest := ih (fun type htype => by
        obtain ⟨elements, harray, helement⟩ := mem_elementTypes.mp htype
        exact .element (hmet _ harray) helement) (List.forall_mem_cons.mp hparts).2
      intro label hlabel
      exact hrest label (by simpa using hlabel)
  | inside _ hdescend _ ih =>
      obtain ⟨type, htype, hopens⟩ := opens_of_descend? hdescend
      exact ih (.inside (hmet type htype) hopens) hparts

end PathPosition

/-! ## What a path stands for -/

namespace Scope

/-- A path stands for the steps that its parts denote in the outermost document.  There is one step
for each part, and no other choice. -/
structure StandsFor (scope : Scope σ) (path : String) (segments : List Segment) : Prop where
  denotes : (PathPosition.document scope.frame).Denotes (Dotted.split path) segments
  length : segments.length = (Dotted.split path).length
  only : ∀ others, (PathPosition.document scope.frame).Denotes (Dotted.split path) others →
    others = segments

variable {scope : Scope σ} {path : String}

theorem standsFor_of_lookup {target : ResolvedPath σ} (hlookup : scope.lookup path = .ok target) :
    scope.StandsFor path target.segments := by
  have hdenotes := lookup_iff.mp ⟨target, hlookup, rfl⟩
  refine ⟨hdenotes, hdenotes.length_eq, fun others hothers => ?_⟩
  obtain ⟨found, hfound, rfl⟩ := lookup_iff.mpr hothers
  rw [Except.ok.inj (hfound.symm.trans hlookup)]

theorem StandsFor.dotless (hbuilt : ∀ inner schema, scope.Reaches inner schema → schema.WellFormed)
    {segments : List Segment} (hstands : scope.StandsFor path segments) :
    Segment.Dotless segments :=
  hstands.denotes.dotless hbuilt .root fun _ => Dotted.plain_of_mem_split

end Scope

/-! ## Conditions -/

theorem Test.paths_pieces (test : Test) : test.pieces.filterMap Piece.path? = [test.path] := by
  have hnone : (test.operands.map Piece.operand).filterMap Piece.path? = [] := by
    simp [Piece.path?]
  rw [filterMap_pieces fun _ => rfl, content, List.filterMap_cons_some (by rfl)]
  cases test.op with
  | between | oneOf => rfl
  | _ => exact congrArg (test.path :: ·) hnone

namespace Scope

variable {scope : Scope σ}

theorem standsFor_of_test {comparison : Comparison} {test : Test}
    (htest : scope.test comparison = .ok test) : scope.StandsFor comparison.path test.path := by
  simp only [Scope.test, Except.bind_eq_ok] at htest
  obtain ⟨target, hlookup, operands, -, htest⟩ := htest
  split at htest
  · obtain rfl := Except.pure_eq_ok.mp htest
    exact standsFor_of_lookup hlookup
  · split at htest <;> simp at htest

/-- A condition shows the paths of its comparisons one after another. -/
theorem paths_of_compileCondition
    (hbuilt : ∀ inner schema, scope.Reaches inner schema → schema.WellFormed)
    {condition : Condition} {compiled : CompiledExpression}
    (hcompiled : scope.compileCondition condition = .ok compiled) :
    ∃ pieces, compiled.Shows pieces ∧
      List.Forall₂ (fun comparison segments => scope.StandsFor comparison.path segments)
        (ConditionNode.allComparisons condition.root.children) (pieces.filterMap Piece.path?) := by
  simp only [compileCondition, Except.bind_eq_ok, Except.pure_eq_ok] at hcompiled
  obtain ⟨chain, hchain, rfl⟩ := hcompiled
  generalize hpieces : (chain.map PredicateChain.pieces).getD [] = pieces
  have hpaths : pieces.filterMap Piece.path? =
      (chain.toList.flatMap PredicateChain.tests).map Test.path := by
    rw [← hpieces]
    cases chain with
    | none => rfl
    | some chain =>
        have hall : chain.pieces.filterMap Piece.path? = chain.tests.flatMap fun test =>
            test.pieces.filterMap Piece.path? := chain.filterMap_pieces fun _ => rfl
        simp only [Test.paths_pieces] at hall
        simpa [List.map_eq_flatMap] using hall
  have hspaced : Piece.Spaced pieces := by
    rw [← hpieces]
    cases chain with
    | none => trivial
    | some chain => exact PredicateChain.spaced_pieces (wellFormed_of_chain? hchain chain rfl)
  have hstands : List.Forall₂ (fun comparison segments => scope.StandsFor comparison.path segments)
      (ConditionNode.allComparisons condition.root.children) (pieces.filterMap Piece.path?) := by
    rw [hpaths, List.forall₂_map_right_iff]
    exact (forall₂_tests_of_chain? hchain).imp fun _ _ => standsFor_of_test
  refine ⟨pieces, CompiledExpression.shows_ofPieces hspaced fun segments hsegments => ?_, hstands⟩
  obtain ⟨comparison, -, hdenotes⟩ := exists_related_right hstands hsegments
  exact hdenotes.dotless hbuilt

end Scope

/-! ## Updates -/

namespace Scope

variable {scope : Scope σ} {writing : Writing} {current update : Document} {actions : List Action}
  {before after : σ}

/-- What is requested for a combined attribute may give way to what the attribute is joined to
again.  This takes place under its native name, and not all native names of the outermost document
lead to their attributes. -/
def GivesWay (scope : Scope σ) (writing : Writing) (segments : List Segment) : Prop :=
  writing.options.combine = true ∧ ¬ scope.root.Addressable ∧
    ∃ field ∈ scope.root.attributes, field.combine?.isSome = true ∧ segments = [.name field.name]

/-- A requested path is the path of an action, if it does not give way. -/
theorem exists_action_of_requested (hschema : scope.root.WellFormed)
    {requested : List (Change σ)} {asked : Change σ}
    (hrequested : scope.requestedChanges update = .ok requested)
    (hrun : Yields (scope.updateActions writing current update) before actions after)
    (hasked : asked ∈ requested) (hstays : ¬ scope.GivesWay writing asked.target.segments) :
    ∃ action ∈ actions, action.path = asked.target.segments := by
  by_cases hnames : scope.root.Addressable
  · obtain ⟨_, prepared, implied, changes, hstages⟩ := stages_of_yields hschema hnames hrun
    obtain rfl := Except.ok.inj (hstages.requests.symm.trans hrequested)
    have hpath := hstages.segments_of_requested hasked
    rw [← hstages.path_eq] at hpath
    exact List.mem_map.mp hpath
  -- no combined attribute takes the place of the change
  · unfold updateActions at hrun
    obtain ⟨_, _, hrequests, hrun⟩ := yields_bind.mp hrun
    obtain rfl := Except.ok.inj ((yields_ofExcept.mp hrequests).1.symm.trans hrequested)
    obtain ⟨restored, _, hrestored, hrun⟩ := yields_bind.mp hrun
    obtain ⟨prepared, _, hprepared, hrun⟩ := yields_bind.mp hrun
    obtain ⟨changes, _, hchanges, hactions⟩ := yields_bind.mp hrun
    obtain ⟨change, hchange, hprepares⟩ :=
      exists_related_left (Change.prepares_of_yields hrestored hprepared) hasked
    have hkept : change ∈ changes := by
      refine mem_of_yields_allChanges (fun hcombine field hfield hsome => ?_) hchanges hchange
      rw [hprepares.concerns_eq, Bool.eq_false_iff]
      intro hconcerns
      exact hstays ⟨hcombine, hnames, field, hfield, hsome, (Change.concerns_iff_of_lookup
        (of_requestedChanges hrequested asked hasked).1 ⟨field, hfield, rfl⟩).mp hconcerns⟩
    have hstored : List.Forall₂ (Change.Stores scope writing current) changes actions :=
      Yields.forall₂_mapM (fun _ _ first last hstep => ⟨first, last, hstep⟩) hactions
    obtain ⟨action, haction, hstores⟩ := exists_related_left hstored hkept
    exact ⟨action, haction, by rw [hstores.path_eq, hprepares.target_eq]⟩

/-- Requested paths stand for paths of actions, and these stand for requested or derived ones. -/
theorem paths_of_yields_updateActions (hschema : scope.root.WellFormed)
    (hrun : Yields (scope.updateActions writing current update) before actions after) :
    ∃ requests, Request.ofDocument update = .ok requests ∧
      (∀ request ∈ requests, ∃ segments, scope.StandsFor request.1 segments ∧
        (¬ scope.GivesWay writing segments → ∃ action ∈ actions, action.path = segments)) ∧
      ∀ action ∈ actions, ∃ path, scope.StandsFor path action.path ∧
        (path ∈ requests.map Prod.fst ∨
          ∃ change : Change σ, scope.Derives writing change ∧ change.path = path) := by
  obtain ⟨requested, changes, hrequested, hstores, hall⟩ := rounds_or_derived hrun
  obtain ⟨requests, hrequests, hmade⟩ := exists_requests hrequested
  refine ⟨requests, hrequests, fun request hrequest => ?_, fun action haction => ?_⟩
  · obtain ⟨asked, hasked, hchange⟩ := exists_related_left hmade hrequest
    exact ⟨_, standsFor_of_lookup (of_change_request hchange).2.2,
      exists_action_of_requested hschema hrequested hrun hasked⟩
  · obtain ⟨change, hchange, hstored⟩ := exists_related_right hstores haction
    obtain ⟨hlookup, horigin⟩ := hall change hchange
    refine ⟨change.path, hstored.path_eq ▸ standsFor_of_lookup hlookup, ?_⟩
    rcases horigin with ⟨asked, hasked, hrounds⟩ | hderives
    · obtain ⟨request, hrequest, hasked⟩ := exists_related_right hmade hasked
      refine .inl (List.mem_map.mpr ⟨request, hrequest, ?_⟩)
      rw [hrounds.prepares.path_eq, (of_change_request hasked).1]
    · exact .inr ⟨change, hderives, rfl⟩

end Scope

/-! ## All expressions -/

/-- Let the schemas be built.  With the placeholders looked up, the text of a compiled condition
shows for each comparison, in their order, the steps that its path stands for.  That of a compiled
update shows the steps of every requested path, unless the path gives way to a combined attribute,
and nothing but the steps of requested and of derived paths. -/
theorem Mapper.paths_denote (mapper : Mapper σ)
    (hbuilt : ∀ scope schema, mapper.scope.Reaches scope schema → schema.WellFormed) :
    (∀ condition compiled, mapper.condition condition = .ok compiled →
      ∃ pieces, compiled.Shows pieces ∧
        List.Forall₂ (fun comparison segments => mapper.scope.StandsFor comparison.path segments)
          (ConditionNode.allComparisons condition.root.children)
          (pieces.filterMap Piece.path?)) ∧
    ∀ writing current update before compiled after,
      (mapper.update writing current update).Yields before compiled after →
      ∃ requests pieces, Request.ofDocument update = .ok requests ∧ compiled.Shows pieces ∧
        (∀ request ∈ requests, ∃ segments, mapper.scope.StandsFor request.1 segments ∧
          (¬ mapper.scope.GivesWay writing segments → .path segments ∈ pieces)) ∧
        ∀ segments, .path segments ∈ pieces → ∃ path, mapper.scope.StandsFor path segments ∧
          (path ∈ requests.map Prod.fst ∨
            ∃ change, mapper.scope.Derives writing change ∧ change.path = path) := by
  refine ⟨fun condition compiled => Scope.paths_of_compileCondition hbuilt, ?_⟩
  intro writing current update before compiled after hrun
  obtain ⟨actions, hactions, rfl⟩ := actions_of_yields_update hrun
  obtain ⟨requests, hrequests, hrequested, hshown⟩ :=
    Scope.paths_of_yields_updateActions (hbuilt _ _ .root) hactions
  have horigin : ∀ segments, .path segments ∈ Action.updatePieces actions →
      ∃ path, mapper.scope.StandsFor path segments ∧ (path ∈ requests.map Prod.fst ∨
        ∃ change, mapper.scope.Derives writing change ∧ change.path = path) := by
    intro segments hsegments
    obtain ⟨action, haction, rfl⟩ := Action.mem_updatePieces_path.mp hsegments
    exact hshown action haction
  refine ⟨requests, Action.updatePieces actions, hrequests,
    CompiledExpression.shows_ofPieces (Action.spaced_updatePieces actions)
      fun segments hsegments => ?_, fun request hrequest => ?_, horigin⟩
  · obtain ⟨path, hstands, -⟩ := horigin segments (Piece.mem_paths_iff.mp hsegments)
    exact hstands.dotless hbuilt
  · obtain ⟨segments, hstands, hstays⟩ := hrequested request hrequest
    exact ⟨segments, hstands, fun hkept => Action.mem_updatePieces_path.mpr (hstays hkept)⟩

/-! ## Notes of a tenant -/

/-- There is something in the first note, and in what is called the note at zero. -/
def Condition.notes : Condition where
  root := ⟨[.comparison ⟨"note.0.b", .present, []⟩, .comparison ⟨"note[0].b", .present, []⟩], [.and]⟩
  pending := none
  negated := false
  joiner := none

/-- The two paths have the same text.  They share the placeholder of their last name and still show
different steps. -/
theorem Mapper.paths_denote_tenant :
    (∀ scope schema, (tenant .everything).scope.Reaches scope schema → schema.WellFormed) ∧
    (∃ pieces, CompiledExpression.Shows
        ⟨"attribute_exists(#a0[0].#a1) AND attribute_exists(#a2.#a1)",
          [("#a0", "note"), ("#a1", "b"), ("#a2", "note[0]")], []⟩ pieces ∧
      List.Forall₂ (fun comparison segments =>
          (tenant .everything).scope.StandsFor comparison.path segments)
        (ConditionNode.allComparisons Condition.notes.root.children)
        (pieces.filterMap Piece.path?)) ∧
    ∃ requests pieces,
      Request.ofDocument [("$ADD", .map [("note.0.b", .number (.ofInt 1))]),
        ("house.street", .string "Elm")] = .ok requests ∧
      CompiledExpression.Shows ⟨"ADD #a0[0].#a1 :v0 SET #a2.#a3 = :v1",
        [("#a0", "note"), ("#a1", "b"), ("#a2", "home"), ("#a3", "street")],
        [(":v0", .number "1"), (":v1", .string "Elm")]⟩ pieces ∧
      (∀ request ∈ requests, ∃ segments,
        (tenant .everything).scope.StandsFor request.1 segments ∧
          (¬ (tenant .everything).scope.GivesWay ⟨.update, .epoch, 0⟩ segments →
            .path segments ∈ pieces)) ∧
      ∀ segments, .path segments ∈ pieces →
        ∃ path, (tenant .everything).scope.StandsFor path segments ∧
          (path ∈ requests.map Prod.fst ∨
            ∃ change, (tenant .everything).scope.Derives ⟨.update, .epoch, 0⟩ change ∧
              change.path = path) := by
  obtain ⟨hconditions, hupdates⟩ :=
    paths_denote (tenant .everything) fun _ _ => Scope.wellFormed_tenant
  refine ⟨fun _ _ => Scope.wellFormed_tenant, ?_, ?_⟩
  · exact hconditions .notes _ (Except.toOption_eq_some.mp (by decide +kernel))
  · exact hupdates ⟨.update, .epoch, 0⟩ [] _ () _ () (yields_of_value? (by decide +kernel))

end ItemMapper
