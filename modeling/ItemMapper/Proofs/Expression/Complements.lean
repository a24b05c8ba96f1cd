import ItemMapper.Proofs.Expression.Conditions
import ItemMapper.Proofs.Fields

/-!
# Complements in condition documents

A condition document is recorded entry by entry: each entry gives one comparison, whatever the
others are, and all of them must hold (`Condition.ofDocument_eq_ok`).  An entry with another operator
therefore changes nothing but its own comparison.

`Condition.complements_iff` asks what becomes of that comparison if the operator is replaced by its
complement.  It becomes the complement with the same operands, except where the presence of an
attribute is compared with `false`: both ways to write that ask for the attribute to be absent.
-/

namespace ItemMapper

/-! ## Entries and their comparisons -/

theorem Asked.path_ofEntry (path : String) (value : Value) : (ofEntry path value).path = path := by
  unfold ofEntry
  split <;> rfl

/-- What the entry of a condition document asks for is recorded as the comparison. -/
structure Comparison.Records (comparison : Comparison) (entry : String × Value) : Prop where
  recorded : (Asked.ofEntry entry.1 entry.2).RecordedAs comparison
  takes : comparison.op.takes comparison.operands.length = true

theorem Comparison.Records.path_eq {comparison : Comparison} {entry : String × Value}
    (hrecords : comparison.Records entry) : comparison.path = entry.1 :=
  hrecords.recorded.path.trans (Asked.path_ofEntry entry.1 entry.2)

/-- Entries are compared under their keys. -/
theorem Comparison.map_path_of_records {comparisons : List Comparison} {document : Document}
    (hrecords : List.Forall₂ Records comparisons document) :
    comparisons.map path = document.map Prod.fst := by
  induction hrecords with
  | nil => rfl
  | cons hfirst _ ih => rw [List.map_cons, List.map_cons, hfirst.path_eq, ih]

namespace Condition

/-- The complete condition that all of some comparisons hold. -/
def all (comparisons : List Comparison) : Condition where
  root := ⟨comparisons.map .comparison, List.replicate (comparisons.length - 1) .and⟩
  pending := none
  negated := false
  joiner := none

theorem append_all (comparisons : List Comparison) (comparison : Comparison) :
    (all comparisons).append (.comparison comparison) = all (comparisons ++ [comparison]) := by
  cases comparisons with
  | nil => rfl
  | cons first rest =>
      have hjoiners : List.replicate rest.length Joiner.and ++ [.and] =
          List.replicate (rest.length + 1) .and := List.replicate_succ'.symm
      simp [all, append, ConditionGroup.push, hjoiners]

theorem effective_eq_ok {condition : Condition} {op meant : Operator} :
    condition.effective op = .ok meant ↔
      if condition.negated then op.complement? = some meant else op = meant := by
  unfold effective
  cases condition.negated with
  | false => simp
  | true => cases op.complement? <;> simp

/-- An entry adds the comparison that it is recorded as. -/
theorem compareWith_all_eq_ok {comparisons : List Comparison} {path : String} {value : Value}
    {next : Condition} :
    ((all comparisons).on path).compareWith value = .ok next ↔
      ∃ comparison : Comparison, comparison.Records (path, value) ∧
        next = all (comparisons ++ [comparison]) := by
  have hpath := Asked.path_ofEntry path value
  obtain ⟨asked, hasked⟩ : ∃ asked, Asked.ofEntry path value = asked := ⟨_, rfl⟩
  rw [hasked] at hpath
  rw [compareWith_eq _ path, compare_eq_ok, hasked]
  -- a negation stands before the comparison of the entry only
  obtain ⟨start, hstart⟩ : ∃ start, (if asked.negated = true then ((all comparisons).on path).not
      else (all comparisons).on path) = start := ⟨_, rfl⟩
  have hnegated : start.negated = asked.negated := by
    rw [← hstart]
    cases asked.negated <;> rfl
  have hpending : start.pending = some path := by
    rw [← hstart]
    cases asked.negated <;> rfl
  have hidle : { start with pending := none, negated := false } = all comparisons := by
    rw [← hstart]
    cases asked.negated <;> rfl
  rw [hstart, hidle]
  simp only [effective_eq_ok, hnegated, hpending, Option.some.injEq, append_all]
  constructor
  · rintro ⟨named, meant, rfl, hmeant, htakes, rfl⟩
    refine ⟨⟨path, meant, asked.operands⟩, ⟨⟨?_, ?_, ?_⟩, htakes⟩, rfl⟩
    · rw [hasked, hpath]
    · rw [hasked]
    · rw [hasked]
      exact hmeant
  · rintro ⟨⟨named, meant, operands⟩, ⟨⟨hnamed, hoperands, hmeant⟩, htakes⟩, rfl⟩
    rw [hasked] at hnamed hoperands hmeant
    obtain rfl : named = path := hnamed.trans hpath
    obtain rfl : operands = asked.operands := hoperands
    exact ⟨named, meant, rfl, hmeant, htakes, rfl⟩

/-- A condition document is recorded entry by entry, in the order of its keys. -/
theorem ofDocument_eq_ok {document : Document} {condition : Condition} :
    ofDocument document = .ok condition ↔
      ∃ comparisons, List.Forall₂ Comparison.Records comparisons document ∧
        condition = all comparisons := by
  suffices hfold : ∀ earlier,
      document.foldlM (fun condition entry => (condition.on entry.1).compareWith entry.2)
          (all earlier) = .ok condition ↔
        ∃ comparisons, List.Forall₂ Comparison.Records comparisons document ∧
          condition = all (earlier ++ comparisons) from hfold []
  induction document with
  | nil =>
      intro earlier
      rw [List.foldlM_nil, Except.pure_eq_ok]
      simp [eq_comm]
  | cons entry rest ih =>
      intro earlier
      rw [List.foldlM_cons, Except.bind_eq_ok]
      constructor
      · rintro ⟨middle, hmiddle, hrest⟩
        obtain ⟨comparison, hrecords, rfl⟩ := compareWith_all_eq_ok.mp hmiddle
        obtain ⟨comparisons, hothers, rfl⟩ := (ih _).mp hrest
        exact ⟨comparison :: comparisons, .cons hrecords hothers, by simp⟩
      · rintro ⟨_, hall, rfl⟩
        obtain ⟨comparison, comparisons, hrecords, hothers, rfl⟩ :=
          List.forall₂_cons_right_iff.mp hall
        exact ⟨_, compareWith_all_eq_ok.mpr ⟨comparison, hrecords, rfl⟩,
          (ih _).mpr ⟨comparisons, hothers, by simp⟩⟩

end Condition

/-! ## Operators with a complement -/

/-- The entry says that the presence, or the absence, of its attribute is false. -/
def Operator.DeniesPresence (op : Operator) (operand : Value) : Prop :=
  (op = .present ∨ op = .absent) ∧ operand = .bool false

/-- The operands that an operator with a complement takes of the value that is given to it. -/
def Operator.operandsOf (op : Operator) (operand : Value) : List Value :=
  if op.takes 0 then [] else [operand]

theorem Operator.deniesPresence_complement {op other : Operator} {operand : Value}
    (hcomplement : op.complement? = some other) :
    other.DeniesPresence operand ↔ op.DeniesPresence operand := by
  cases op <;> cases other <;> simp_all [complement?, DeniesPresence]

theorem Operator.operandsOf_complement {op other : Operator}
    (hcomplement : op.complement? = some other) (operand : Value) :
    other.operandsOf operand = op.operandsOf operand := by
  cases op <;> cases other <;> simp_all [complement?, operandsOf, takes]

theorem Condition.operatorOf?_named {name : String} {op : Operator}
    (hname : Operator.ofName? name = some op) (operand : Value) :
    operatorOf? (.map [(name, operand)]) = some (op, operand) := by
  simp [operatorOf?, hname]

namespace Comparison

variable {path name : String} {operand : Value} {op opposite : Operator} {comparison : Comparison}

/-- The attribute must be absent, whether its presence or its absence is called false. -/
theorem records_iff_of_denied (hname : Operator.ofName? name = some op)
    (hdenied : op.DeniesPresence operand) :
    comparison.Records (path, .map [(name, operand)]) ↔ comparison = ⟨path, .absent, []⟩ := by
  obtain ⟨hop, rfl⟩ := hdenied
  have hentry := Condition.operatorOf?_named hname (.bool false)
  obtain ⟨given, meant, operands⟩ := comparison
  constructor
  · rintro ⟨⟨hpath, hoperands, hmeant⟩, -⟩
    rcases hop with rfl | rfl <;>
      simp_all [Asked.ofEntry, Operator.complement?]
  · intro hcomparison
    obtain ⟨rfl, rfl, rfl⟩ := Comparison.mk.inj hcomparison
    constructor
    · rcases hop with rfl | rfl <;>
        constructor <;> simp [Asked.ofEntry, hentry, Operator.complement?]
    · rfl

/-- In every other entry an operator with a complement is recorded as it is. -/
theorem records_iff_of_plain (hname : Operator.ofName? name = some op)
    (hcomplement : op.complement? = some opposite) (hplain : ¬ op.DeniesPresence operand) :
    comparison.Records (path, .map [(name, operand)]) ↔
      comparison = ⟨path, op, op.operandsOf operand⟩ := by
  have hentry : Asked.ofEntry path (.map [(name, operand)]) =
      ⟨path, op, op.operandsOf operand, false⟩ := by
    rw [Asked.ofEntry, Condition.operatorOf?_named hname]
    cases op with
    | beginsWith | oneOf | between => simp [Operator.complement?] at hcomplement
    | present =>
        have hfalse : operand ≠ .bool false := fun hfalse => hplain ⟨.inl rfl, hfalse⟩
        split <;> simp_all [Operator.operandsOf, Operator.takes]
    | _ => rfl
  have htakes : op.takes (op.operandsOf operand).length = true := by
    cases op <;> simp_all [Operator.complement?] <;> rfl
  obtain ⟨given, meant, operands⟩ := comparison
  constructor
  · rintro ⟨⟨hpath, hoperands, hmeant⟩, -⟩
    rw [hentry] at hpath hoperands hmeant
    obtain rfl : op = meant := by simpa using hmeant
    rw [Comparison.mk.injEq]
    exact ⟨hpath, rfl, hoperands⟩
  · intro hcomparison
    obtain ⟨rfl, rfl, rfl⟩ := Comparison.mk.inj hcomparison
    refine ⟨?_, htakes⟩
    rw [hentry]
    exact ⟨rfl, rfl, by simp⟩

/-- With the complement of its operator an entry is recorded as well, with the same operands, and
as the complement unless a presence is denied. -/
theorem Records.exists_opposite {other : String} (hname : Operator.ofName? name = some op)
    (hother : Operator.ofName? other = some opposite) (hcomplement : op.complement? = some opposite)
    (hrecords : comparison.Records (path, .map [(name, operand)])) :
    ∃ opposed : Comparison, opposed.Records (path, .map [(other, operand)]) ∧
      opposed.path = comparison.path ∧ opposed.operands = comparison.operands ∧
      (comparison.op.complement? = some opposed.op ↔ ¬ op.DeniesPresence operand) ∧
      (op.DeniesPresence operand → comparison.op = .absent ∧ opposed.op = .absent) := by
  have hsame : opposite.DeniesPresence operand ↔ op.DeniesPresence operand :=
    Operator.deniesPresence_complement hcomplement
  by_cases hdenied : op.DeniesPresence operand
  · obtain rfl := (records_iff_of_denied hname hdenied).mp hrecords
    exact ⟨_, (records_iff_of_denied hother (hsame.mpr hdenied)).mpr rfl, rfl, rfl,
      by simp [Operator.complement?, hdenied], fun _ => ⟨rfl, rfl⟩⟩
  · obtain rfl := (records_iff_of_plain hname hcomplement hdenied).mp hrecords
    exact ⟨_, (records_iff_of_plain hother (Operator.complement?_complement? hcomplement)
        fun hopposite => hdenied (hsame.mp hopposite)).mpr rfl, rfl,
      Operator.operandsOf_complement hcomplement operand, by simp [hcomplement, hdenied],
      fun hdenies => absurd hdenies hdenied⟩

end Comparison

/-! ## Documents -/

/-- If an entry of a condition document compares by an operator with a complement, the document with
the complement in its place is a condition as well.  Both conditions are recorded alike but for the
operator of that entry.  The one operator is the complement of the other, unless the entry calls the
presence or the absence of its attribute false: then both ask for it to be absent. -/
theorem Condition.complements_iff {document : Document} {path name other : String}
    {operand : Value} {op opposite : Operator} {condition : Condition} (hsorted : document.Sorted)
    (hentry : document.get? path = some (.map [(name, operand)]))
    (hname : Operator.ofName? name = some op) (hother : Operator.ofName? other = some opposite)
    (hcomplement : op.complement? = some opposite)
    (hcondition : ofDocument document = .ok condition) :
    ∃ (earlier later : List Comparison) (operands : List Value) (recorded opposed : Operator),
      condition = all (earlier ++ ⟨path, recorded, operands⟩ :: later) ∧
      ofDocument (document.insert path (.map [(other, operand)])) =
        .ok (all (earlier ++ ⟨path, opposed, operands⟩ :: later)) ∧
      (∀ comparison ∈ earlier ++ later, comparison.path ≠ path) ∧
      (recorded.complement? = some opposed ↔ ¬ op.DeniesPresence operand) ∧
      (op.DeniesPresence operand → recorded = .absent ∧ opposed = .absent) := by
  obtain ⟨before, after, rfl, hothers, hinsert⟩ := Fields.exists_split hsorted hentry
  obtain ⟨comparisons, hrecords, rfl⟩ := ofDocument_eq_ok.mp hcondition
  -- the comparisons of the entries before this one, its own, and those of the entries after it
  have hearlier := List.forall₂_take_append _ _ _ hrecords
  have hrest := List.forall₂_drop_append _ _ _ hrecords
  have hsplit := List.take_append_drop before.length comparisons
  generalize comparisons.take before.length = earlier at hearlier hsplit
  generalize comparisons.drop before.length = rest at hrest hsplit
  obtain ⟨comparison, later, hrecorded, hlater, rfl⟩ := List.forall₂_cons_right_iff.mp hrest
  obtain rfl := hsplit
  obtain ⟨opposed, hopposed, hpath, hoperands, hiff, habsent⟩ :=
    hrecorded.exists_opposite hname hother hcomplement
  obtain ⟨given, recorded, operands⟩ := comparison
  obtain ⟨given', meant, operands'⟩ := opposed
  obtain rfl : given = path := hrecorded.path_eq
  obtain rfl : given' = given := hpath
  obtain rfl : operands' = operands := hoperands
  refine ⟨earlier, later, operands', recorded, meant, rfl, ?_, ?_, hiff, habsent⟩
  · rw [hinsert]
    exact ofDocument_eq_ok.mpr ⟨_, List.rel_append hearlier (.cons hopposed hlater), rfl⟩
  · intro comparison hcomparison
    have hmem : comparison.path ∈ (before ++ after).map Prod.fst := by
      rw [← Comparison.map_path_of_records (List.rel_append hearlier hlater)]
      exact List.mem_map_of_mem hcomparison
    obtain ⟨entry, hentry, hkey⟩ := List.mem_map.mp hmem
    exact hkey ▸ hothers entry hentry

/-! ## Tasks -/

/-- The tasks that are not archived, are due before the ninth day and have no old title. -/
def Document.openTasks : Document :=
  [("archived", .map [("exists", .bool false)]), ("due", .map [("LT", .number (.ofInt 9))]),
    ("title", .map [("not_contains", .string "old")])]

/-- Those due later differ from them in a single comparison. -/
theorem Condition.complements_iff_openTasks :
    ∃ condition, ofDocument Document.openTasks = .ok condition ∧
      ∃ (earlier later : List Comparison) (operands : List Value) (recorded opposed : Operator),
        condition = all (earlier ++ ⟨"due", recorded, operands⟩ :: later) ∧
        ofDocument (Document.openTasks.insert "due" (.map [("ge", .number (.ofInt 9))])) =
          .ok (all (earlier ++ ⟨"due", opposed, operands⟩ :: later)) ∧
        (∀ comparison ∈ earlier ++ later, comparison.path ≠ "due") ∧
        (recorded.complement? = some opposed ↔
          ¬ Operator.DeniesPresence .less (.number (.ofInt 9))) ∧
        (Operator.DeniesPresence .less (.number (.ofInt 9)) →
          recorded = .absent ∧ opposed = .absent) :=
  ⟨_, rfl, complements_iff (by decide) rfl
    (by decide : Operator.ofName? "LT" = some .less)
    (by decide : Operator.ofName? "ge" = some .greaterOrEqual) rfl rfl⟩

/-- That an attribute is present and that it is absent are called false in the same way: either time
it has to be absent. -/
theorem Condition.denials_coincide :
    (Operator.ofName? "exists" = some .present ∧ Operator.ofName? "not_exists" = some .absent ∧
      Operator.complement? .present = some .absent) ∧
    ofDocument [("archived", .map [("exists", .bool false)])] =
      .ok (all [⟨"archived", .absent, []⟩]) ∧
    ofDocument [("archived", .map [("not_exists", .bool false)])] =
      .ok (all [⟨"archived", .absent, []⟩]) ∧
    Operator.complement? .absent ≠ some .absent :=
  ⟨⟨by decide, by decide, rfl⟩, rfl, rfl, by decide⟩

end ItemMapper
