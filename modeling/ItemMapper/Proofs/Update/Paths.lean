import ItemMapper.Proofs.Update.Changes

/-!
# The paths of a compiled update

The text of an update names a path for each of its actions, in whatever clause the action stands;
a `list_append` names it twice.  `mem_updatePieces_path` says that these are all paths in the
text, so what is to be shown of them can be shown of `Action.path`.  What an action does may depend
on the value, but where it does it is decided by the change alone (`Change.Stores.path_eq`).

Two paths of one update must not overlap: neither may lead to the other or inside it
(`Segment.Apart`).
-/

namespace ItemMapper

/-! ## Overlaps -/

/-- Neither path begins with the other. -/
def Segment.Apart (first second : List Segment) : Prop :=
  ¬ first <+: second ∧ ¬ second <+: first

theorem Segment.Apart.symm {first second : List Segment} (h : Apart first second) :
    Apart second first :=
  And.symm h

/-- A path of one segment is apart from those that begin otherwise. -/
theorem Segment.apart_singleton {segment : Segment} {path : List Segment} (hpath : path ≠ []) :
    Apart [segment] path ↔ path.head? ≠ some segment := by
  obtain ⟨first, rest, rfl⟩ := List.exists_cons_of_ne_nil hpath
  constructor
  · rintro ⟨hapart, -⟩ hfirst
    obtain rfl := Option.some.inj hfirst
    exact hapart ⟨rest, rfl⟩
  · intro hfirst
    have hne : first ≠ segment := by simpa using hfirst
    exact ⟨by simpa using hne.symm, by simp [hne]⟩

/-! ## The layout of actions -/

namespace Action

/-- The path that an action is about. -/
def path : Action → List Segment
  | .add path _ | .remove path | .set path _ | .append path _ | .delete path _ => path

/-- The action that stores a value at a path, or removes the path if nothing is stored. -/
def ofStored (path : List Segment) : Option WireValue → Action
  | some operand => .set path operand
  | none => .remove path

theorem path_ofStored (path : List Segment) (stored : Option WireValue) :
    (ofStored path stored).path = path := by
  cases stored <;> rfl

theorem ofStored_inj {path : List Segment} {stored other : Option WireValue} :
    ofStored path stored = ofStored path other ↔ stored = other := by
  cases stored <;> cases other <;> simp [ofStored]

theorem mem_pieces_path {action : Action} {path : List Segment} :
    Piece.path path ∈ action.pieces ↔ action.path = path := by
  cases action <;> simp [pieces, Action.path, eq_comm]

theorem mem_intercalate {α : Type} {separator item : α} {lists : List (List α)}
    (hitem : item ≠ separator) :
    item ∈ [separator].intercalate lists ↔ ∃ list ∈ lists, item ∈ list := by
  induction lists with
  | nil => simp
  | cons first rest ih =>
      cases rest with
      | nil => simp
      | cons second more =>
          rw [List.intercalate_cons_cons, List.mem_append, List.mem_append, ih]
          simp [hitem]

theorem mem_clausePieces?_path {actions : List Action} {clause : Clause} {path : List Segment} :
    (∃ pieces, clausePieces? actions clause = some pieces ∧ Piece.path path ∈ pieces) ↔
      ∃ action ∈ actions, action.clause = clause ∧ action.path = path := by
  have hmembers : ∀ members : List Action,
      Piece.path path ∈ [Piece.text ", "].intercalate (members.map Action.pieces) ↔
        ∃ action ∈ members, action.path = path := by
    intro members
    rw [mem_intercalate (by simp)]
    simp [mem_pieces_path]
  -- a clause that no action stands in is left out of the text
  unfold clausePieces?
  split
  case h_1 hnone =>
    simp only [List.filter_eq_nil_iff, decide_eq_true_eq] at hnone
    simpa using fun action haction hclause => absurd hclause (hnone action haction)
  case h_2 members _ =>
    simp only [Option.some.injEq, exists_eq_left', List.mem_cons, reduceCtorEq, false_or, hmembers]
    simp [and_assoc]

theorem clause_mem_all (clause : Clause) : clause ∈ Clause.all := by
  cases clause <;> decide

/-- The paths in the text of an update are those of its actions. -/
theorem mem_updatePieces_path {actions : List Action} {path : List Segment} :
    Piece.path path ∈ updatePieces actions ↔ ∃ action ∈ actions, action.path = path := by
  rw [updatePieces, mem_intercalate (by simp)]
  simp only [List.mem_filterMap]
  constructor
  · rintro ⟨pieces, ⟨clause, -, hclause⟩, hpath⟩
    obtain ⟨action, haction, -, hpath⟩ := mem_clausePieces?_path.mp ⟨pieces, hclause, hpath⟩
    exact ⟨action, haction, hpath⟩
  · rintro ⟨action, haction, hpath⟩
    obtain ⟨pieces, hpieces, hmem⟩ :=
      mem_clausePieces?_path.mpr ⟨action, haction, rfl, hpath⟩
    exact ⟨pieces, ⟨action.clause, clause_mem_all _, hpieces⟩, hmem⟩

end Action

/-! ## From changes to actions -/

namespace Change

variable {σ : Type} {scope : Scope σ} {writing : Writing} {current : Document} {change : Change σ}

open Pipeline

/-- Something undeclared grows by a value: a number, a set or a list. -/
theorem addUndeclared?_cases {path : List Segment} {value : Value} {action : Action}
    (hadd : addUndeclared? path value = some action) :
    ∃ operand, value.natural? = some operand ∧
      (action = .add path operand ∨ action = .append path operand) := by
  unfold addUndeclared? at hadd
  split at hadd <;> simp only [Option.map_eq_some_iff, reduceCtorEq] at hadd <;>
    obtain ⟨operand, hoperand, rfl⟩ := hadd
  · exact ⟨operand, hoperand, .inl rfl⟩
  · exact ⟨operand, hoperand, .inl rfl⟩
  · exact ⟨operand, hoperand, .inr rfl⟩

/-- What adding can do: a number grows, the first set of the types gains members, or the first list
grows where there is no set. -/
theorem addition_cases {value : Value} {action : Action}
    (hadd : change.addition scope current value = .ok action) :
    (change.target.types = none ∧
      addUndeclared? change.target.segments value = some action) ∨
    ∃ types, change.target.types = some types ∧
      ((∃ x, value = .number x ∧ CandidateType.hasNumber types = true ∧
          action = .add change.target.segments (.number x.text)) ∨
        (∃ element operand, CandidateType.firstSetElement? types = some element ∧
          change.encodeMembers scope element value = .ok (some operand) ∧
          action = .add change.target.segments operand) ∨
        (∃ array operand, CandidateType.firstSetElement? types = none ∧
          CandidateType.firstArray? types = some array ∧
          (Value.list value.members).encodeAs ⟨scope, .ofText change.path, array⟩ =
            .ok (some operand) ∧
          action = if current.lacksItems change.path then .set change.target.segments operand
            else .append change.target.segments operand)) := by
  unfold addition at hadd
  extract_lets path orWrong at hadd
  have hright : ∀ {α : Type} {result : Option α} {found : α},
      orWrong result = .ok found → result = some found := by
    intro α result found hfound
    cases result with
    | none => contradiction
    | some given => exact congrArg some (Except.ok.inj hfound)
  split at hadd
  case h_1 hnone => exact .inl ⟨hnone, hright hadd⟩
  case h_2 types htypes =>
    refine .inr ⟨types, htypes, ?_⟩
    split at hadd
    case h_1 x hnumber =>
      exact .inl ⟨x, rfl, hnumber, (Except.ok.inj hadd).symm⟩
    case h_2 =>
      split at hadd
      case h_1 _ _ element hset =>
        simp only [Except.bind_eq_ok, Except.pure_eq_ok] at hadd
        obtain ⟨stored, hstored, operand, hoperand, rfl⟩ := hadd
        obtain rfl := hright hoperand
        exact .inr (.inl ⟨element, operand, hset, hstored, rfl⟩)
      case h_2 _ _ array hset harray =>
        simp only [Except.bind_eq_ok, Except.pure_eq_ok] at hadd
        obtain ⟨stored, hstored, operand, hoperand, rfl⟩ := hadd
        obtain rfl := hright hoperand
        exact .inr (.inr ⟨array, operand, hset, harray, hstored, rfl⟩)
      case h_3 =>
        have hnone : none = some action := hright hadd
        contradiction

/-- What taking members away can do: the type of the members is that of the first set of the types,
or else what the value itself tells. -/
theorem deletion_cases {value : Value} {action : Action}
    (hdelete : change.deletion scope value = .ok action) :
    ∃ element operand, (change.target.types.bind CandidateType.firstSetElement?).or
        (CandidateType.ofSetMembers? value) = some element ∧
      change.encodeMembers scope element value = .ok (some operand) ∧
      action = .delete change.target.segments operand := by
  unfold deletion at hdelete
  split at hdelete
  case h_1 => simp at hdelete
  case h_2 _ element helement =>
    obtain ⟨stored, hstored, hdelete⟩ := Except.bind_eq_ok.mp hdelete
    cases stored with
    | none => simp at hdelete
    | some operand => exact ⟨element, operand, helement, hstored, (Except.ok.inj hdelete).symm⟩

/-- Some run writes a value for the attribute, or it has this natural form where nothing is declared;
none means that nothing is stored. -/
def Writes (scope : Scope σ) (writing : Writing) (change : Change σ) (value : Value)
    (stored : Option WireValue) : Prop :=
  match change.target.types with
  | some types => ∃ before after,
      Yields (Value.writerTo writing writing.depth value scope (.ofText change.path) types) before
        stored after
  | none => stored = value.natural?

/-- What assigning can do: what is written of the value is set, and the attribute is removed if that
is nothing. -/
theorem assignment_cases {value : Value} {before after : σ} {action : Action}
    (hrun : Yields (change.assignment scope writing value) before action after) :
    ∃ stored, change.Writes scope writing value stored ∧
      action = .ofStored change.target.segments stored := by
  unfold assignment at hrun
  extract_lets finish at hrun
  have hfinish : ∀ {stored between}, Yields (finish stored) between action after →
      action = .ofStored change.target.segments stored := by
    intro stored between haction
    cases stored with
    | none => exact (yields_pure.mp haction).1.symm
    | some operand => exact (yields_pure.mp haction).1.symm
  split at hrun
  case h_1 types htypes =>
    obtain ⟨stored, between, hstored, haction⟩ := yields_bind.mp hrun
    refine ⟨stored, ?_, hfinish haction⟩
    rw [Writes, htypes]
    exact ⟨before, between, hstored⟩
  case h_2 hnone =>
    obtain ⟨stored, between, hstored, haction⟩ := yields_bind.mp hrun
    obtain rfl := (yields_pure.mp hstored).1
    refine ⟨_, ?_, hfinish haction⟩
    rw [Writes, hnone]

theorem Writes.of_types {value : Value} {stored : Option WireValue}
    {types : List (CandidateType σ)} (hwrites : change.Writes scope writing value stored)
    (htypes : change.target.types = some types) : ∃ before after,
      Yields (Value.writerTo writing writing.depth value scope (.ofText change.path) types) before
        stored after := by
  rwa [Writes, htypes] at hwrites

theorem path_of_addition {value : Value} {action : Action}
    (hadd : change.addition scope current value = .ok action) :
    action.path = change.target.segments := by
  rcases addition_cases hadd with ⟨-, hundeclared⟩ |
    ⟨types, -, ⟨x, -, -, rfl⟩ | ⟨element, operand, -, -, rfl⟩ | ⟨array, operand, -, -, -, rfl⟩⟩
  · obtain ⟨operand, -, rfl | rfl⟩ := addUndeclared?_cases hundeclared <;> rfl
  · rfl
  · rfl
  · split <;> rfl

/-- The action is the change on the stored side. -/
def Stores (scope : Scope σ) (writing : Writing) (current : Document) (change : Change σ)
    (action : Action) : Prop :=
  ∃ before after, Yields (change.action scope writing current) before action after

/-- A change keeps its path on the way to the stored side. -/
theorem Stores.path_eq {action : Action} (hstores : change.Stores scope writing current action) :
    action.path = change.target.segments := by
  obtain ⟨_, _, hrun⟩ := hstores
  unfold Change.action at hrun
  split at hrun
  · obtain ⟨rfl, -⟩ := yields_pure.mp hrun
    rfl
  · obtain ⟨stored, -, rfl⟩ := assignment_cases hrun
    exact Action.path_ofStored _ _
  · exact path_of_addition (yields_ofExcept.mp hrun).1
  · obtain ⟨_, _, -, -, rfl⟩ := deletion_cases (yields_ofExcept.mp hrun).1
    rfl

end Change

end ItemMapper
