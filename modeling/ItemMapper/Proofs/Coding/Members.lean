import ItemMapper.Proofs.Coding.Set
import ItemMapper.Proofs.Pipeline

/-!
# The members of stored sets

A stored set lists the stored forms of its members in the order of their first occurrence and each
once (`ListsOnce`), and it is never empty.  This holds however the members come to be alike: dates
of one second, the two zeros and all texts that are the same are one member.

`SetElement.encodes_of_encode` says so of the set that some values are stored as, whatever its
members are.
-/

namespace ItemMapper

variable {α : Type}

/-! ## Lists without repetition -/

/-- A list has just the items of another one, each once and in the order of first occurrence. -/
structure ListsOnce [DecidableEq α] (listed given : List α) : Prop where
  distinct : listed.Nodup
  mem_iff : ∀ item, item ∈ listed ↔ item ∈ given
  ordered : listed.Pairwise fun item other => given.idxOf item < given.idxOf other

/-- Leaving out items does not change the order of those that stay. -/
theorem idxOf_lt_of_filter [DecidableEq α] {keeps : α → Bool} {item other : α}
    (hitem : keeps item = true) (hother : keeps other = true) : ∀ {items : List α},
    (items.filter keeps).idxOf item < (items.filter keeps).idxOf other →
      items.idxOf item < items.idxOf other := by
  intro items
  induction items with
  | nil => simp
  | cons first rest ih =>
      intro hlt
      by_cases hfirst : keeps first = true
      · rw [List.filter_cons_of_pos hfirst] at hlt
        by_cases hsame : first = item
        · subst hsame
          have hne : first ≠ other := fun heq => by simp [heq] at hlt
          rw [List.idxOf_cons_self, List.idxOf_cons_ne _ hne]
          exact Nat.succ_pos _
        · by_cases hlast : first = other
          · subst hlast
            simp at hlt
          · rw [List.idxOf_cons_ne _ hsame, List.idxOf_cons_ne _ hlast] at hlt ⊢
            exact Nat.succ_lt_succ (ih (Nat.lt_of_succ_lt_succ hlt))
      · have hne : ∀ {kept}, keeps kept = true → first ≠ kept := by
          rintro _ hkept rfl
          exact hfirst hkept
        rw [List.filter_cons_of_neg hfirst] at hlt
        rw [List.idxOf_cons_ne _ (hne hitem), List.idxOf_cons_ne _ (hne hother)]
        exact Nat.succ_lt_succ (ih hlt)

theorem pairwise_idxOf_eraseDups [DecidableEq α] (items : List α) :
    items.eraseDups.Pairwise fun item other => items.idxOf item < items.idxOf other := by
  induction hlength : items.length using Nat.strong_induction_on generalizing items with
  | _ length ih =>
      cases items with
      | nil => simp
      | cons first rest =>
          have hshorter : (rest.filter fun other => !other == first).length < length := by
            rw [← hlength]
            exact Nat.lt_succ_of_le (List.length_filter_le _ _)
          have hne : ∀ {item}, item ∈ (rest.filter fun other => !other == first).eraseDups →
              item ≠ first := by
            intro item hitem
            simpa using (List.mem_filter.mp (List.mem_eraseDups.mp hitem)).2
          rw [List.eraseDups_cons, List.pairwise_cons]
          constructor
          · intro other hother
            rw [List.idxOf_cons_self, List.idxOf_cons_ne _ (hne hother).symm]
            exact Nat.succ_pos _
          · refine List.Pairwise.imp_of_mem ?_ (ih _ hshorter _ rfl)
            intro item other hitem hother hlt
            rw [List.idxOf_cons_ne _ (hne hitem).symm, List.idxOf_cons_ne _ (hne hother).symm]
            refine Nat.succ_lt_succ (idxOf_lt_of_filter ?_ ?_ hlt)
            · simpa using hne hitem
            · simpa using hne hother

theorem listsOnce_eraseDups [DecidableEq α] (items : List α) : ListsOnce items.eraseDups items :=
  ⟨nodup_eraseDups items, fun _ => List.mem_eraseDups, pairwise_idxOf_eraseDups items⟩

/-! ## Stored sets -/

/-- The members that a stored set lists, none if the value is no set. -/
def WireValue.setMembers? : WireValue → Option (List SetMember)
  | .stringSet texts | .numberSet texts => some (texts.map .text)
  | .binarySet contents => some (contents.map .bytes)
  | _ => none

namespace SetElement

variable {element : SetElement} {values : List Value} {members : List SetMember}
  {stored : WireValue}

/-- The kind of content that the members of a set of this type have. -/
def Takes (element : SetElement) : SetMember → Prop
  | .text _ => element.wireType ≠ .binarySet
  | .bytes _ => element.wireType = .binarySet

theorem wireType_cases (element : SetElement) :
    element.wireType = .stringSet ∨ element.wireType = .numberSet ∨
      element.wireType = .binarySet := by
  cases element with
  | date storage => cases storage <;> simp [wireType]
  | _ => simp [wireType]

theorem takes_of_member? {value : Value} {member : SetMember}
    (hmember : element.member? value = some member) : element.Takes member := by
  cases element with
  | string =>
      cases value <;> simp only [member?, Option.some.injEq, reduceCtorEq] at hmember
      exact hmember ▸ by simp [Takes, wireType]
  | number =>
      cases value <;> simp only [member?, Option.some.injEq, reduceCtorEq] at hmember
      exact hmember ▸ by simp [Takes, wireType]
  | binary =>
      cases value <;> simp only [member?, Option.some.injEq, reduceCtorEq] at hmember
      exact hmember ▸ rfl
  | date storage =>
      obtain ⟨_, -, htext⟩ := Option.bind_eq_some_iff.mp hmember
      obtain ⟨_, -, rfl⟩ := Option.map_eq_some_iff.mp htext
      cases storage <;> simp [Takes, wireType]

theorem forall₂_of_members : ∀ {values : List Value} {members : List SetMember},
    element.members values = .ok members →
      List.Forall₂ (fun value member => element.member? value = some member) values members
  | [], _, hmembers => by
      obtain rfl := Except.ok.inj hmembers
      exact .nil
  | value :: rest, members, hmembers => by
      rw [SetElement.members] at hmembers
      split at hmembers
      · contradiction
      · next member hmember =>
          cases hrest : element.members rest with
          | error wrong =>
              rw [hrest] at hmembers
              contradiction
          | ok others =>
              rw [hrest] at hmembers
              obtain rfl := Except.ok.inj hmembers
              exact .cons hmember (forall₂_of_members hrest)

/-- Members of one kind are known by their contents. -/
theorem map_texts (htakes : ∀ member ∈ members, element.Takes member)
    (hkind : element.wireType ≠ .binarySet) : (SetMember.texts members).map .text = members := by
  induction members with
  | nil => rfl
  | cons member rest ih =>
      rw [List.forall_mem_cons] at htakes
      cases member with
      | bytes content => exact absurd htakes.1 hkind
      | text content => exact congrArg (SetMember.text content :: ·) (ih htakes.2)

theorem map_binaries (htakes : ∀ member ∈ members, element.Takes member)
    (hkind : element.wireType = .binarySet) :
    (SetMember.binaries members).map .bytes = members := by
  induction members with
  | nil => rfl
  | cons member rest ih =>
      rw [List.forall_mem_cons] at htakes
      cases member with
      | text content => exact absurd hkind htakes.1
      | bytes content => exact congrArg (SetMember.bytes content :: ·) (ih htakes.2)

theorem of_store? (htakes : ∀ member ∈ members, element.Takes member)
    (hstored : element.store? members = some stored) :
    stored.wireType = element.wireType ∧ stored.setMembers? = some members.eraseDups ∧
      members ≠ [] := by
  have hkept : ∀ member ∈ members.eraseDups, element.Takes member :=
    fun member hmember => htakes member (List.mem_eraseDups.mp hmember)
  have hne : members ≠ [] := by
    rintro rfl
    cases hstored
  unfold store? at hstored
  split at hstored
  · contradiction
  · split at hstored
    · next hkind =>
        obtain rfl := Option.some.inj hstored
        exact ⟨hkind.symm, congrArg some (map_binaries hkept hkind), hne⟩
    · next hkind =>
        obtain rfl := Option.some.inj hstored
        exact ⟨hkind.symm, congrArg some (map_texts hkept (by simp [hkind])), hne⟩
    · next hbinary hstring =>
        obtain rfl := Option.some.inj hstored
        have hkind : element.wireType = .numberSet := by
          rcases element.wireType_cases with hkind | hkind | hkind
          · exact absurd hkind hstring
          · exact hkind
          · exact absurd hkind hbinary
        exact ⟨hkind.symm, congrArg some (map_texts hkept (by simp [hkind])), hne⟩

/-- A stored set holds what its members are stored as, and only this. -/
structure Encodes (element : SetElement) (values : List Value) (stored : WireValue) : Prop where
  wireType : stored.wireType = element.wireType
  nonempty : values ≠ []
  members : ∃ listed encodings, stored.setMembers? = some listed ∧
    List.Forall₂ (fun value member => element.member? value = some member) values encodings ∧
      ListsOnce listed encodings

theorem encodes_of_encode (hencode : element.encode values = .ok (some stored)) :
    element.Encodes values stored := by
  rw [encode] at hencode
  cases hmembers : element.members values with
  | error wrong =>
      rw [hmembers] at hencode
      contradiction
  | ok encodings =>
      rw [hmembers] at hencode
      have hvalues := forall₂_of_members hmembers
      have htakes : ∀ member ∈ encodings, element.Takes member := by
        intro member hmem
        obtain ⟨value, -, hmember⟩ := exists_related_right hvalues hmem
        exact takes_of_member? hmember
      obtain ⟨hkind, hlisted, hne⟩ := of_store? htakes (Except.ok.inj hencode)
      refine ⟨hkind, ?_, _, encodings, hlisted, hvalues, listsOnce_eraseDups encodings⟩
      rintro rfl
      exact hne (List.forall₂_nil_left_iff.mp hvalues)

end SetElement

/-- The natural form of a set lists its members, too, all of the kind of the first one. -/
theorem Value.encodes_of_natural? {members : List Value} {stored : WireValue}
    (hnatural : (Value.set members).natural? = some stored) :
    ∃ element : SetElement, element.Encodes members stored := by
  cases members with
  | nil => contradiction
  | cons first rest =>
      rw [natural?] at hnatural
      refine ⟨.ofFirst first, SetElement.encodes_of_encode ?_⟩
      split at hnatural
      · next hencode => rw [hencode, hnatural]
      · contradiction

end ItemMapper
