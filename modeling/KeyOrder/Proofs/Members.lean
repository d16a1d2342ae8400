import KeyOrder.Json.Value
import Mathlib.Data.List.Induction
import Mathlib.Data.List.Nodup
/-!
# Members with distinct keys

Merging members gives every key its last value in its first place: no key stands twice
afterwards, nothing new appears, and members that already had distinct keys are left as
they are.
-/

namespace KeyOrder

variable {κ α β : Type} [DecidableEq κ]

/-! ## Putting one member -/

/-- A member with a new key goes to the end. -/
theorem putMember_of_not_mem (key : κ) (value : α) (members : List (κ × α))
    (h : key ∉ members.map Prod.fst) :
    putMember key value members = members ++ [(key, value)] := by
  induction members with
  | nil => rfl
  | cons m members ih =>
      obtain ⟨k, v⟩ := m
      simp only [List.map_cons, List.mem_cons, not_or] at h
      rw [putMember, if_neg (Ne.symm h.1), ih h.2, List.cons_append]

/-- A member with a key that is there leaves the keys as they are. -/
theorem keys_putMember_of_mem (key : κ) (value : α) (members : List (κ × α))
    (h : key ∈ members.map Prod.fst) :
    (putMember key value members).map Prod.fst = members.map Prod.fst := by
  induction members with
  | nil => simp at h
  | cons m members ih =>
      obtain ⟨k, v⟩ := m
      rw [putMember]
      split
      · rfl
      · next hne =>
        simp only [List.map_cons, List.mem_cons] at h ⊢
        rw [ih (h.resolve_left (Ne.symm hne))]

/-- Putting a member keeps keys distinct. -/
theorem nodup_keys_putMember (key : κ) (value : α) {members : List (κ × α)}
    (h : (members.map Prod.fst).Nodup) : ((putMember key value members).map Prod.fst).Nodup := by
  by_cases hmem : key ∈ members.map Prod.fst
  · rw [keys_putMember_of_mem key value members hmem]
    exact h
  · rw [putMember_of_not_mem key value members hmem, List.map_append]
    exact h.append (List.nodup_singleton key) (by simpa using hmem)

/-- The keys after putting a member are those before it, and its own if it is new. -/
theorem keys_putMember_sublist (key : κ) (value : α) (members : List (κ × α)) :
    ((putMember key value members).map Prod.fst).Sublist (members.map Prod.fst ++ [key]) := by
  by_cases hmem : key ∈ members.map Prod.fst
  · rw [keys_putMember_of_mem key value members hmem]
    exact List.sublist_append_left _ _
  · rw [putMember_of_not_mem key value members hmem, List.map_append]
    exact List.Sublist.refl _

/-- A member that is put has replaced the one with its key and left all others. -/
theorem mem_putMember_iff {key : κ} {value : α} {members : List (κ × α)}
    (hkeys : (members.map Prod.fst).Nodup) {m : κ × α} :
    m ∈ putMember key value members ↔ m = (key, value) ∨ m.1 ≠ key ∧ m ∈ members := by
  induction members with
  | nil => simp [putMember]
  | cons first members ih =>
      obtain ⟨k, v⟩ := first
      rw [List.map_cons, List.nodup_cons] at hkeys
      rw [putMember]
      by_cases hkey : k = key
      · subst hkey
        rw [if_pos rfl, List.mem_cons, List.mem_cons]
        refine or_congr_right ⟨fun h => ⟨?_, Or.inr h⟩, ?_⟩
        · intro heq
          exact hkeys.1 (List.mem_map.mpr ⟨m, h, heq⟩)
        · rintro ⟨hne, rfl | h⟩
          · exact absurd rfl hne
          · exact h
      · rw [if_neg hkey, List.mem_cons, List.mem_cons, ih hkeys.2]
        constructor
        · rintro (rfl | rfl | ⟨hne, h⟩)
          · exact Or.inr ⟨hkey, Or.inl rfl⟩
          · exact Or.inl rfl
          · exact Or.inr ⟨hne, Or.inr h⟩
        · rintro (rfl | ⟨hne, rfl | h⟩)
          · exact Or.inr (Or.inl rfl)
          · exact Or.inl rfl
          · exact Or.inr (Or.inr ⟨hne, h⟩)

/-! ## Merging members -/

/-- Merging one more pair puts it as a member. -/
theorem mergeMembers_concat (pairs : List (κ × α)) (pair : κ × α) :
    mergeMembers (pairs ++ [pair]) = putMember pair.1 pair.2 (mergeMembers pairs) := by
  rw [mergeMembers, List.foldl_append]
  rfl

/-- Merged members have distinct keys. -/
theorem nodup_keys_mergeMembers (pairs : List (κ × α)) :
    ((mergeMembers pairs).map Prod.fst).Nodup := by
  induction pairs using List.reverseRecOn with
  | nil => exact List.nodup_nil
  | append_singleton pairs pair ih =>
      rw [mergeMembers_concat]
      exact nodup_keys_putMember pair.1 pair.2 ih

/-- Merged members keep the order in which their keys first stand. -/
theorem keys_mergeMembers_sublist (pairs : List (κ × α)) :
    ((mergeMembers pairs).map Prod.fst).Sublist (pairs.map Prod.fst) := by
  induction pairs using List.reverseRecOn with
  | nil => exact List.Sublist.refl _
  | append_singleton pairs pair ih =>
      rw [mergeMembers_concat, List.map_append]
      exact (keys_putMember_sublist _ _ _).trans (ih.append_right _)

/-- Of the pairs with one key the last one is merged. -/
theorem mem_mergeMembers_iff {pairs : List (κ × α)} {m : κ × α} :
    m ∈ mergeMembers pairs ↔ (pairs.filter (·.1 = m.1)).getLast? = some m := by
  induction pairs using List.reverseRecOn with
  | nil => simp [mergeMembers]
  | append_singleton pairs pair ih =>
      rw [mergeMembers_concat, mem_putMember_iff (nodup_keys_mergeMembers pairs), ih,
        List.filter_append]
      by_cases hkey : pair.1 = m.1
      · rw [List.filter_cons_of_pos (by simpa using hkey), List.filter_nil, List.getLast?_concat,
          Option.some.injEq]
        exact ⟨fun h => (h.resolve_right fun h => h.1 hkey.symm).symm, fun h => Or.inl h.symm⟩
      · rw [List.filter_cons_of_neg (by simpa using hkey), List.filter_nil, List.append_nil]
        refine ⟨fun h => (h.resolve_left ?_).2, fun h => Or.inr ⟨Ne.symm hkey, h⟩⟩
        rintro rfl
        exact hkey rfl

/-- A merged member is one of the pairs. -/
theorem mem_of_mem_mergeMembers {pairs : List (κ × α)} {m : κ × α} (h : m ∈ mergeMembers pairs) :
    m ∈ pairs :=
  (List.mem_filter.mp (List.mem_of_getLast? (mem_mergeMembers_iff.mp h))).1

/-- Members with distinct keys are merged already. -/
theorem mergeMembers_of_nodup {pairs : List (κ × α)} (h : (pairs.map Prod.fst).Nodup) :
    mergeMembers pairs = pairs := by
  induction pairs using List.reverseRecOn with
  | nil => rfl
  | append_singleton pairs pair ih =>
      rw [List.map_append, List.nodup_append] at h
      have hnew : pair.1 ∉ pairs.map Prod.fst := fun hmem =>
        h.2.2 pair.1 hmem pair.1 List.mem_cons_self rfl
      rw [mergeMembers_concat, ih h.1, putMember_of_not_mem pair.1 pair.2 pairs hnew]

/-- Values may be changed before members are merged or after. -/
theorem mergeMembers_map (f : α → β) (pairs : List (κ × α)) :
    mergeMembers (pairs.map fun m => (m.1, f m.2))
      = (mergeMembers pairs).map fun m => (m.1, f m.2) := by
  have hput : ∀ (key : κ) (value : α) (members : List (κ × α)),
      putMember key (f value) (members.map fun m => (m.1, f m.2))
        = (putMember key value members).map fun m => (m.1, f m.2) := by
    intro key value members
    induction members with
    | nil => rfl
    | cons first members ih =>
        rw [List.map_cons, putMember, putMember]
        split
        · rfl
        · rw [ih, List.map_cons]
  induction pairs using List.reverseRecOn with
  | nil => rfl
  | append_singleton pairs pair ih =>
      rw [List.map_append, List.map_singleton, mergeMembers_concat, mergeMembers_concat, ih, hput]

/-! ## Members as a table -/

omit [DecidableEq κ] in
/-- Members with distinct keys have one value for each key. -/
theorem eq_of_mem_of_key_eq {members : List (κ × α)} (h : (members.map Prod.fst).Nodup)
    {m m' : κ × α} (hm : m ∈ members) (hm' : m' ∈ members) (hkey : m.1 = m'.1) : m = m' :=
  List.inj_on_of_nodup_map h hm hm' hkey

omit [DecidableEq κ] in
/-- Members with the same keys in the same order, and the same value for each key, are the same. -/
theorem eq_of_keys_eq {members members' : List (κ × α)}
    (hkeys : members.map Prod.fst = members'.map Prod.fst)
    (h : ∀ m ∈ members, ∀ m' ∈ members', m.1 = m'.1 → m.2 = m'.2) : members = members' := by
  have hlength : members.length = members'.length := by
    simpa using congrArg List.length hkeys
  apply List.ext_getElem hlength
  intro i hi hi'
  have hkey : members[i].1 = members'[i].1 := by
    have := List.getElem_of_eq hkeys (i := i) (by simpa using hi)
    simpa using this
  exact Prod.ext hkey (h _ (List.getElem_mem hi) _ (List.getElem_mem hi') hkey)

end KeyOrder
