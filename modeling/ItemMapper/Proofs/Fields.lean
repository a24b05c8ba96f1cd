import ItemMapper.Fields
import Mathlib.Data.List.Induction
import Mathlib.Data.List.Nodup

/-!
# Fields given in any order

A document is written attribute by attribute, in the order of the schema, and read in that order
again, while it lists its own fields in the order of their keys.  As long as no key is given twice
the order makes no difference: `Fields.ofList_perm` says that the fields are those that are given,
and `ofList_congr` that two lists of the same pairs make the same fields.  Where keys are repeated,
`get?_ofList` says that the last pair counts.  A key that is given once more has its value replaced
where it stands (`exists_split`).

Fields correspond if they have the same keys, with related values (`Fields.Rel`).  All operations
carry this on.
-/

namespace ItemMapper.Fields

variable {α β : Type}

theorem nodup_of_sorted {fields : Fields α} (hsorted : Sorted fields) :
    (fields.map Prod.fst).Nodup :=
  List.Pairwise.imp (fun hlt heq => absurd (heq ▸ hlt) (String.lt_irrefl _))
    (List.pairwise_map.mpr hsorted)

theorem mem_of_get? {fields : Fields α} {key : String} {value : α}
    (hvalue : fields.get? key = some value) : (key, value) ∈ fields := by
  induction fields with
  | nil => simp at hvalue
  | cons field rest ih =>
      rw [get?_cons] at hvalue
      split at hvalue
      · next hkey =>
          obtain rfl := Option.some.inj hvalue
          exact hkey ▸ List.mem_cons_self
      · exact List.mem_cons_of_mem _ (ih hvalue)

/-- Without repeated keys the view of a list is what the list holds. -/
theorem get?_eq_none_iff {fields : Fields α} {key : String} :
    fields.get? key = none ↔ ∀ value, (key, value) ∉ fields := by
  rw [get?, List.lookup_eq_none_iff]
  constructor
  · intro hnone value hmem
    simpa using hnone (key, value) hmem
  · rintro hnone ⟨other, value⟩ hmem
    rw [bne_iff_ne]
    rintro rfl
    exact hnone value hmem

theorem get?_eq_some_iff {fields : Fields α} (hdistinct : (fields.map Prod.fst).Nodup)
    {key : String} {value : α} : fields.get? key = some value ↔ (key, value) ∈ fields := by
  induction fields with
  | nil => simp
  | cons field rest ih =>
      obtain ⟨hfresh, hrest⟩ := List.nodup_cons.mp hdistinct
      rw [get?_cons]
      by_cases hkey : key = field.1
      · subst hkey
        have hother : (field.1, value) ∉ rest :=
          fun hmem => hfresh (List.mem_map.mpr ⟨_, hmem, rfl⟩)
        rw [if_pos rfl, List.mem_cons, Option.some_inj]
        constructor
        · rintro rfl
          exact .inl rfl
        · rintro (heq | hmem)
          · rw [← heq]
          · exact absurd hmem hother
      · rw [if_neg hkey, ih hrest, List.mem_cons]
        constructor
        · exact .inr
        · rintro (rfl | hmem)
          · exact absurd rfl hkey
          · exact hmem

/-- A new key is one more pair. -/
theorem insert_perm {key : String} (value : α) {fields : Fields α}
    (hfresh : key ∉ fields.map Prod.fst) : (insert key value fields).Perm ((key, value) :: fields) := by
  induction fields with
  | nil => exact .refl _
  | cons field rest ih =>
      obtain ⟨other, old⟩ := field
      rw [List.map_cons, List.mem_cons, not_or] at hfresh
      simp only [insert]
      split
      · exact .refl _
      · rw [if_neg hfresh.1]
        exact ((ih hfresh.2).cons _).trans (.swap _ _ _)

theorem foldl_insert_perm {pairs fields : List (String × α)}
    (hdistinct : ((pairs ++ fields).map Prod.fst).Nodup) :
    (pairs.foldl (fun fields field => insert field.1 field.2 fields) fields).Perm
      (pairs ++ fields) := by
  induction pairs generalizing fields with
  | nil => exact .refl _
  | cons pair rest ih =>
      have hfresh : pair.1 ∉ fields.map Prod.fst := by
        rw [List.cons_append, List.map_cons, List.nodup_cons, List.map_append, List.mem_append,
          not_or] at hdistinct
        exact hdistinct.1.2
      have hstep : (rest ++ insert pair.1 pair.2 fields).Perm (pair :: (rest ++ fields)) :=
        ((insert_perm pair.2 hfresh).append_left rest).trans List.perm_middle
      exact (ih ((hstep.map Prod.fst).nodup_iff.mpr hdistinct)).trans hstep

/-- Another value of a key takes the place of its old one. -/
theorem exists_split {fields : Fields α} {key : String} {value : α}
    (hsorted : Sorted fields) (hvalue : fields.get? key = some value) :
    ∃ before after, fields = before ++ (key, value) :: after ∧
      (∀ field ∈ before ++ after, field.1 ≠ key) ∧
      ∀ other, insert key other fields = before ++ (key, other) :: after := by
  induction fields with
  | nil => simp at hvalue
  | cons field rest ih =>
      obtain ⟨name, first⟩ := field
      obtain ⟨hfirst, hrest⟩ := List.pairwise_cons.mp hsorted
      rw [get?_cons] at hvalue
      split at hvalue
      · next heq =>
          obtain rfl : key = name := heq
          obtain rfl := Option.some.inj hvalue
          refine ⟨[], rest, rfl, fun other hother heq => ?_, fun other => ?_⟩
          · exact absurd (heq ▸ hfirst other hother) (String.lt_irrefl _)
          · simp [insert]
      · next hne =>
          obtain ⟨before, after, rfl, hothers, hinsert⟩ := ih hrest hvalue
          have hlt : name < key := hfirst (key, value) (by simp)
          refine ⟨(name, first) :: before, after, rfl, ?_, fun other => ?_⟩
          · rw [List.cons_append, List.forall_mem_cons]
            exact ⟨fun heq => hne heq.symm, hothers⟩
          · rw [insert, if_neg (String.lt_asymm hlt), if_neg hne, hinsert]
            rfl

/-- Without repeated keys the fields of a list are its pairs. -/
theorem ofList_perm {pairs : List (String × α)} (hdistinct : (pairs.map Prod.fst).Nodup) :
    (ofList pairs).Perm pairs := by
  have hfold : (ofList pairs).Perm (pairs ++ []) :=
    foldl_insert_perm (by rwa [List.append_nil])
  rwa [List.append_nil] at hfold

theorem eq_of_perm {first second : Fields α} (hfirst : Sorted first) (hsecond : Sorted second)
    (hperm : first.Perm second) : first = second :=
  hperm.eq_of_pairwise (fun _ _ _ _ hlt hgt => absurd (String.lt_trans hlt hgt) (String.lt_irrefl _))
    hfirst hsecond

/-- The same pairs in another order make the same fields. -/
theorem ofList_congr {first second : List (String × α)} (hdistinct : (first.map Prod.fst).Nodup)
    (hperm : first.Perm second) : ofList first = ofList second := by
  have hdistinct' : (second.map Prod.fst).Nodup := (hperm.map Prod.fst).nodup_iff.mp hdistinct
  exact eq_of_perm (sorted_ofList _) (sorted_ofList _)
    ((ofList_perm hdistinct).trans (hperm.trans (ofList_perm hdistinct').symm))

theorem ofList_of_sorted {fields : Fields α} (hsorted : Sorted fields) : ofList fields = fields :=
  eq_of_perm (sorted_ofList _) hsorted (ofList_perm (nodup_of_sorted hsorted))

theorem get?_ofList_eq_some_iff {pairs : List (String × α)}
    (hdistinct : (pairs.map Prod.fst).Nodup) {key : String} {value : α} :
    (ofList pairs).get? key = some value ↔ (key, value) ∈ pairs := by
  rw [get?_eq_some_iff (nodup_of_sorted (sorted_ofList _)), (ofList_perm hdistinct).mem_iff]

/-- Fields are known by what they hold. -/
theorem ext {first second : Fields α} (hfirst : Sorted first) (hsecond : Sorted second)
    (hsame : ∀ key, first.get? key = second.get? key) : first = second := by
  have hfirst' := nodup_of_sorted hfirst
  have hsecond' := nodup_of_sorted hsecond
  apply eq_of_perm hfirst hsecond
  rw [List.perm_ext_iff_of_nodup (hfirst'.of_map _) (hsecond'.of_map _)]
  rintro ⟨key, value⟩
  rw [← get?_eq_some_iff hfirst', ← get?_eq_some_iff hsecond', hsame]

theorem ofList_concat (pairs : List (String × α)) (pair : String × α) :
    ofList (pairs ++ [pair]) = insert pair.1 pair.2 (ofList pairs) := by
  simp [ofList]

/-- Of several values of one key the last counts. -/
theorem get?_ofList (pairs : List (String × α)) (key : String) :
    (ofList pairs).get? key = get? pairs.reverse key := by
  induction pairs using List.reverseRecOn with
  | nil => rfl
  | append_singleton rest pair ih =>
      rw [ofList_concat, List.reverse_append, List.reverse_singleton, List.singleton_append,
        get?_cons]
      by_cases hkey : key = pair.1
      · rw [hkey, get?_insert_self, if_pos rfl]
      · rw [get?_insert_of_ne hkey, if_neg hkey, ih]

/-- What comes later counts more. -/
theorem get?_ofList_append (first second : List (String × α)) (key : String) :
    (ofList (first ++ second)).get? key =
      ((ofList second).get? key).or ((ofList first).get? key) := by
  rw [get?_ofList, get?_ofList, get?_ofList, List.reverse_append]
  exact List.lookup_append

/-- A pair counts if no other one has its key. -/
theorem get?_ofList_of_mem {pairs : List (String × α)} {key : String} {value : α}
    (hmem : (key, value) ∈ pairs) (honly : ∀ other, (key, other) ∈ pairs → other = value) :
    (ofList pairs).get? key = some value := by
  rw [get?_ofList]
  cases hget : get? pairs.reverse key with
  | some other => rw [honly other (List.mem_reverse.mp (mem_of_get? hget))]
  | none => exact absurd (List.mem_reverse.mpr hmem) (get?_eq_none_iff.mp hget value)

theorem mem_of_get?_ofList {pairs : List (String × α)} {key : String} {value : α}
    (hget : (ofList pairs).get? key = some value) : (key, value) ∈ pairs := by
  rw [get?_ofList] at hget
  exact List.mem_reverse.mp (mem_of_get? hget)

theorem mem_of_mem_ofList {pairs : List (String × α)} {field : String × α}
    (hfield : field ∈ ofList pairs) : field ∈ pairs :=
  mem_of_get?_ofList ((get?_eq_some_iff (nodup_of_sorted (sorted_ofList pairs))).mpr hfield)

theorem ofList_mapValues (f : α → β) (pairs : List (String × α)) :
    ofList (mapValues f pairs) = mapValues f (ofList pairs) := by
  apply ext (sorted_ofList _) (sorted_mapValues f (sorted_ofList _))
  intro key
  have hreverse : (mapValues f pairs).reverse = mapValues f pairs.reverse := by
    simp [mapValues]
  rw [get?_ofList, hreverse, get?_mapValues, get?_mapValues, get?_ofList]

/-! ## Fields that correspond -/

/-- The keys are the same, and their values are related. -/
def Rel (related : String → α → β → Prop) (first : List (String × α))
    (second : List (String × β)) : Prop :=
  List.Forall₂ (fun field other => other.1 = field.1 ∧ related field.1 field.2 other.2) first second

variable {related : String → α → β → Prop} {first : List (String × α)} {second : List (String × β)}

theorem Rel.get? (hrel : Rel related first second) (key : String) :
    Option.Rel (related key) (Fields.get? first key) (Fields.get? second key) := by
  induction hrel with
  | nil => exact .none
  | @cons field other _ _ hfirst _ ih =>
      obtain ⟨hname, hvalue⟩ := hfirst
      rw [get?_cons, get?_cons, hname]
      split
      · next hkey => exact .some (hkey ▸ hvalue)
      · exact ih

theorem Rel.isSome_get? (hrel : Rel related first second) (key : String) :
    (Fields.get? second key).isSome = (Fields.get? first key).isSome := by
  have hvalues := hrel.get? key
  generalize Fields.get? first key = value at hvalues ⊢
  generalize Fields.get? second key = other at hvalues ⊢
  cases hvalues <;> rfl

theorem Rel.insert (hrel : Rel related first second) {key : String} {value : α} {other : β}
    (hvalue : related key value other) :
    Rel related (Fields.insert key value first) (Fields.insert key other second) := by
  induction hrel with
  | nil => exact .cons ⟨rfl, hvalue⟩ .nil
  | @cons field other _ _ hfirst hrest ih =>
      obtain ⟨name, old⟩ := field
      obtain ⟨_, older⟩ := other
      obtain ⟨rfl, hold⟩ := hfirst
      simp only [Fields.insert]
      split
      · exact .cons ⟨rfl, hvalue⟩ (.cons ⟨rfl, hold⟩ hrest)
      · split
        · exact .cons ⟨rfl, hvalue⟩ hrest
        · exact .cons ⟨rfl, hold⟩ ih

theorem Rel.ofList (hrel : Rel related first second) :
    Rel related (Fields.ofList first) (Fields.ofList second) := by
  have hfold : ∀ {fields : Fields α} {others : Fields β}, Rel related fields others →
      Rel related (first.foldl (fun fields field => Fields.insert field.1 field.2 fields) fields)
        (second.foldl (fun fields field => Fields.insert field.1 field.2 fields) others) := by
    induction hrel with
    | nil => exact fun hfields => hfields
    | cons hfirst _ ih =>
        intro fields others hfields
        rw [List.foldl_cons, List.foldl_cons, hfirst.1]
        exact ih (hfields.insert hfirst.2)
  exact hfold .nil

theorem Rel.erase (hrel : Rel related first second) (key : String) :
    Rel related (Fields.erase key first) (Fields.erase key second) := by
  induction hrel with
  | nil => exact .nil
  | cons hfirst _ ih =>
      simp only [Fields.erase, List.filter_cons, hfirst.1]
      split
      · exact .cons hfirst ih
      · exact ih

theorem Rel.eq {related : String → α → α → Prop} {first second : List (String × α)}
    (hrel : Rel related first second)
    (heq : ∀ key value other, related key value other → other = value) : second = first := by
  induction hrel with
  | nil => rfl
  | cons hfirst _ ih => rw [ih, Prod.ext hfirst.1 (heq _ _ _ hfirst.2)]

theorem Rel.mapValues {γ δ : Type} {f : α → γ} {g : β → δ} {mapped : String → γ → δ → Prop}
    (hrel : Rel related first second)
    (hmap : ∀ key value other, related key value other → mapped key (f value) (g other)) :
    Rel mapped (Fields.mapValues f first) (Fields.mapValues g second) :=
  List.forall₂_map_left_iff.mpr (List.forall₂_map_right_iff.mpr
    (List.Forall₂.imp (fun _ _ hfield => ⟨hfield.1, hmap _ _ _ hfield.2⟩) hrel))

end ItemMapper.Fields
