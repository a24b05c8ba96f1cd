/-!
# Fields

Documents, items and nested maps are lists of fields in ascending order of their keys, each key
once (`Fields.Sorted`).  Keys are compared by code point, which is also the order of their UTF-8
bytes.  `Fields.get?` is the view of such a list; each operation is described by what it does to
the view and by the order it keeps.
-/

namespace ItemMapper

/-- Keys with values, in ascending order of the keys. -/
abbrev Fields (α : Type) := List (String × α)

namespace Fields

variable {α β : Type}

/-- Every key is smaller than the keys after it. -/
def Sorted (fields : Fields α) : Prop :=
  fields.Pairwise fun a b => a.1 < b.1

instance (fields : Fields α) : Decidable (Sorted fields) :=
  inferInstanceAs (Decidable (fields.Pairwise fun a b => a.1 < b.1))

def get? (fields : Fields α) (key : String) : Option α :=
  fields.lookup key

def keys (fields : Fields α) : List String :=
  fields.map Prod.fst

/-- Gives a key a value, in the place of an older one. -/
def insert (key : String) (value : α) : Fields α → Fields α
  | [] => [(key, value)]
  | (other, old) :: rest =>
    if key < other then (key, value) :: (other, old) :: rest
    else if key = other then (key, value) :: rest
    else (other, old) :: insert key value rest

def erase (key : String) (fields : Fields α) : Fields α :=
  fields.filter fun field => field.1 != key

/-- The fields of a list of pairs; of several values of one key the last counts. -/
def ofList (pairs : List (String × α)) : Fields α :=
  pairs.foldl (fun fields field => insert field.1 field.2 fields) []

/-- The same keys with other values. -/
def mapValues (f : α → β) (fields : Fields α) : Fields β :=
  fields.map fun field => (field.1, f field.2)

/-! ### What the operations do to the view -/

@[simp] theorem get?_nil (key : String) : get? ([] : Fields α) key = none := rfl

theorem get?_cons (field : String × α) (fields : Fields α) (key : String) :
    get? (field :: fields) key = if key = field.1 then some field.2 else get? fields key := by
  obtain ⟨name, value⟩ := field
  simp only [get?, List.lookup_cons]
  by_cases h : key = name
  · simp [h]
  · simp [h, beq_eq_false_iff_ne.mpr h]

@[simp] theorem get?_insert_self (key : String) (value : α) (fields : Fields α) :
    get? (insert key value fields) key = some value := by
  induction fields with
  | nil => simp [insert, get?_cons]
  | cons field rest ih =>
    obtain ⟨other, old⟩ := field
    simp only [insert]
    split
    · simp [get?_cons]
    · split
      · simp [get?_cons]
      · rename_i h
        simp [get?_cons, h, ih]

theorem get?_insert_of_ne {key other : String} (h : other ≠ key) (value : α)
    (fields : Fields α) : get? (insert key value fields) other = get? fields other := by
  induction fields with
  | nil => simp [insert, get?_cons, h]
  | cons field rest ih =>
    obtain ⟨name, old⟩ := field
    simp only [insert]
    split
    · simp [get?_cons, h]
    · split
      · rename_i heq
        subst heq
        simp [get?_cons, h]
      · simp [get?_cons, ih]

theorem get?_erase (key other : String) (fields : Fields α) :
    get? (erase key fields) other = if other = key then none else get? fields other := by
  induction fields with
  | nil => simp [erase]
  | cons field rest ih =>
    obtain ⟨name, value⟩ := field
    by_cases hname : name = key
    · subst hname
      have : erase name ((name, value) :: rest) = erase name rest := by simp [erase]
      rw [this, ih, get?_cons]
      split <;> simp_all
    · have : erase key ((name, value) :: rest) = (name, value) :: erase key rest := by
        simp [erase, hname]
      rw [this, get?_cons, get?_cons, ih]
      by_cases hother : other = name
      · simp [hother, hname]
      · simp [hother]

@[simp] theorem get?_mapValues (f : α → β) (fields : Fields α) (key : String) :
    get? (mapValues f fields) key = (get? fields key).map f := by
  induction fields with
  | nil => rfl
  | cons field rest ih =>
    have : mapValues f (field :: rest) = (field.1, f field.2) :: mapValues f rest := rfl
    rw [this, get?_cons, get?_cons, ih]
    split <;> simp

/-! ### The order of the keys is kept -/

theorem sorted_nil : Sorted ([] : Fields α) := List.Pairwise.nil

theorem mem_insert {key : String} {value : α} {fields : Fields α} {field : String × α}
    (h : field ∈ insert key value fields) : field = (key, value) ∨ field ∈ fields := by
  induction fields with
  | nil => simpa [insert] using h
  | cons first rest ih =>
    obtain ⟨other, old⟩ := first
    simp only [insert] at h
    split at h
    · simpa using h
    · split at h
      · rcases List.mem_cons.mp h with h | h
        · exact .inl h
        · exact .inr (List.mem_cons_of_mem _ h)
      · rcases List.mem_cons.mp h with h | h
        · exact .inr (List.mem_cons.mpr (.inl h))
        · rcases ih h with h | h
          · exact .inl h
          · exact .inr (List.mem_cons_of_mem _ h)

theorem sorted_insert (key : String) (value : α) {fields : Fields α} (h : Sorted fields) :
    Sorted (insert key value fields) := by
  induction fields with
  | nil => simp [insert, Sorted]
  | cons first rest ih =>
    obtain ⟨other, old⟩ := first
    obtain ⟨hfirst, hrest⟩ := List.pairwise_cons.mp h
    simp only [insert]
    split
    · rename_i hlt
      refine List.pairwise_cons.mpr ⟨?_, h⟩
      intro field hfield
      rcases List.mem_cons.mp hfield with rfl | hfield
      · exact hlt
      · exact String.lt_trans hlt (hfirst field hfield)
    · split
      · rename_i heq
        subst heq
        exact List.pairwise_cons.mpr ⟨hfirst, hrest⟩
      · rename_i hnot hne
        refine List.pairwise_cons.mpr ⟨?_, ih hrest⟩
        intro field hfield
        rcases mem_insert hfield with rfl | hfield
        · exact Decidable.byContradiction fun hnlt =>
            hne (String.le_antisymm (String.not_lt.mp hnlt) (String.not_lt.mp hnot))
        · exact hfirst field hfield

theorem sorted_ofList (pairs : List (String × α)) : Sorted (ofList pairs) := by
  suffices ∀ fields : Fields α, Sorted fields →
      Sorted (pairs.foldl (fun fields field => insert field.1 field.2 fields) fields) from
    this [] sorted_nil
  induction pairs with
  | nil => exact fun _ h => h
  | cons field rest ih => exact fun fields h => ih _ (sorted_insert _ _ h)

theorem sorted_erase (key : String) {fields : Fields α} (h : Sorted fields) :
    Sorted (erase key fields) :=
  List.Pairwise.filter _ h

theorem sorted_mapValues (f : α → β) {fields : Fields α} (h : Sorted fields) :
    Sorted (mapValues f fields) := by
  simpa [Sorted, mapValues, List.pairwise_map] using h

end Fields

end ItemMapper
