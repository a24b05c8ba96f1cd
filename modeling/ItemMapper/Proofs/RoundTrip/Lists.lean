import ItemMapper.Proofs.RoundTrip.Stored

/-!
# Stored lists

The items of a list are stored one by one, by the type of the items, so `StoredAs` is carried from
the items to the list (`ItemsStored.storedAs`).  The score of the list is the average of the scores
of its items, on both sides.
-/

namespace ItemMapper

variable {σ : Type}

/-! ## Going inside a value -/

section Inside

variable {scope : Scope σ} {place : Place} {type : CandidateType σ} {reading : Reading σ}
  {before after : σ}

/-- A value is written by what its type leads to inside it. -/
theorem Value.yields_writeChosen {value : Value} {writing : Writing} {stored : WireValue}
    {inside : CandidateType σ → Option (Pipeline σ WireValue)} {nested : Pipeline σ WireValue}
    (hresolve : scope.resolve place [type] value = .ok ⟨type, reading⟩)
    (hinside : inside type = some nested) (hnested : Pipeline.Yields nested before stored after) :
    Pipeline.Yields (value.writeChosen writing scope place [type] inside) before (some stored)
      after := by
  unfold writeChosen
  rw [hresolve]
  simp only [hinside]
  exact hnested.bind Pipeline.yields_pure_self

theorem WireValue.yields_readChosen {stored : WireValue} {options : MarshalOptions} {back : Value}
    {inside : CandidateType σ → Option (Pipeline σ Value)} {nested : Pipeline σ Value}
    (hresolve : scope.resolveStored place [type] stored = .ok ⟨type, reading⟩)
    (hinside : inside type = some nested) (hnested : Pipeline.Yields nested before back after) :
    Pipeline.Yields (stored.readChosen options scope place [type] inside) before back after := by
  unfold readChosen
  rw [hresolve]
  simpa only [hinside] using hnested

end Inside

/-! ## Lists -/

/-- Items that are stored one by one. -/
inductive ItemsStored (scope : Scope σ) (type : CandidateType σ) :
    List Value → List WireValue → List Value → Prop
  | nil : ItemsStored scope type [] [] []
  | cons {item back : Value} {stored : WireValue} {items backs : List Value}
      {storeds : List WireValue} (hitem : StoredAs scope type item stored back)
      (hrest : ItemsStored scope type items storeds backs) :
      ItemsStored scope type (item :: items) (stored :: storeds) (back :: backs)

theorem exists_itemsStored {scope : Scope σ} {type : CandidateType σ} {items : List Value}
    (hitems : ∀ item ∈ items, ∃ stored back, StoredAs scope type item stored back) :
    ∃ storeds backs, ItemsStored scope type items storeds backs := by
  induction items with
  | nil => exact ⟨[], [], .nil⟩
  | cons item rest ih =>
      obtain ⟨stored, back, hitem⟩ := hitems item (by simp)
      obtain ⟨storeds, backs, hrest⟩ := ih fun other hother => hitems other (by simp [hother])
      exact ⟨stored :: storeds, back :: backs, .cons hitem hrest⟩

namespace ItemsStored

variable {scope : Scope σ} {type : CandidateType σ} {items backs : List Value}
  {storeds : List WireValue}

theorem equal (hitems : ItemsStored scope type items storeds backs) :
    Value.equalItems backs items = true := by
  induction hitems with
  | nil => rfl
  | cons hitem _ ih => rw [Value.equalItems, hitem.equal, ih]; rfl

theorem scores (hitems : ItemsStored scope type items storeds backs) (place : Place) :
    ∀ index, List.Forall₂ Score.AtLeast (items.map Value.size)
      (Value.itemScores Score.rounded scope place [type] index items) := by
  induction hitems with
  | nil => exact fun _ => .nil
  | cons hitem _ ih =>
      intro index
      obtain ⟨reading, hboth⟩ := hitem.both (place.item index)
      exact .cons hboth.best (ih (index + 1))

theorem storedScores (hitems : ItemsStored scope type items storeds backs) (place : Place) :
    ∀ index, List.Forall₂ Score.AtLeast (items.map Value.size)
      (WireValue.itemScores Score.rounded scope place [type] index storeds) := by
  induction hitems with
  | nil => exact fun _ => .nil
  | cons hitem _ ih =>
      intro index
      obtain ⟨reading, hboth⟩ := hitem.both (place.item index)
      exact .cons hboth.bestStored (ih (index + 1))

theorem write (hitems : ItemsStored scope type items storeds backs) (make : Value → Draft σ)
    (now : Instant) (depth : Nat) (place : Place) (before : σ) :
    ∀ index, Pipeline.Yields
      (Value.writeItems make ⟨.plain, now, depth⟩ scope place [type] index items)
      before storeds before := by
  induction hitems with
  | nil => exact fun _ => Pipeline.yields_pure_self
  | cons hitem _ ih =>
      intro index
      apply (hitem.write make now depth (place.item index) before).bind
      exact (ih (index + 1)).bind Pipeline.yields_pure_self

theorem read (hitems : ItemsStored scope type items storeds backs) (place : Place) (before : σ) :
    ∀ index, Pipeline.Yields
      (WireValue.readItems .plain scope place [type] index storeds) before backs before := by
  induction hitems with
  | nil => exact fun _ => Pipeline.yields_pure_self
  | cons hitem _ ih =>
      intro index
      apply (hitem.read (place.item index) before).bind
      exact (ih (index + 1)).bind Pipeline.yields_pure_self

/-- A list is stored as the list of what its items are stored as. -/
theorem storedAs (hitems : ItemsStored scope type items storeds backs)
    (hmemory : (Value.list items).size ≤ 2 ^ 64) :
    StoredAs scope (.array [type]) (.list items) (.list storeds) (.list backs) := by
  have hboth : ∀ place, BothRead scope (.array [type]) (.list items) (.list storeds) place
      ⟨scope, place, .array [type]⟩ := by
    intro place
    rw [Value.size, Value.itemsSize_eq] at hmemory
    have hsum : (items.map Value.size).sum ≤ 2 ^ 64 := by omega
    refine ⟨rfl, rfl, ?_, ?_⟩ <;> rw [Value.size, Value.itemsSize_eq]
    · exact .average (hitems.scores place 0) (Value.size_pos_of_mem items) hsum
    · exact .average (hitems.storedScores place 0) (Value.size_pos_of_mem items) hsum
  refine ⟨hitems.equal, rfl, fun place => ⟨_, hboth place⟩, ?_, ?_⟩
  · intro make now depth place before
    rw [Value.writer]
    refine Value.yields_writeChosen (hboth place).resolve rfl ?_
    exact (hitems.write make now depth place before 0).bind Pipeline.yields_pure_self
  · intro place before
    rw [WireValue.reader]
    refine WireValue.yields_readChosen (hboth place).resolveStored rfl ?_
    exact (hitems.read place before 0).bind Pipeline.yields_pure_self

end ItemsStored

end ItemMapper
