import KeyOrder.Proofs.Naming
/-!
# What sorting from a depth on arranges

`Arranged` says without any sorting what the sorted form of a value is: scalars and
the order of items stay, every mapping keeps its keys and their values, and from
the given depth on its keys stand in the order that is due there.  A value with
distinct string keys has exactly one such form, and sorting finds it.
-/

namespace KeyOrder

/-! ## Arranged keys -/

/-- How the keys of a mapping at a depth are to stand. -/
structure KeysArranged (scope : Scope) (depth : Nat) (given arranged : List CodeText) : Prop where
  /-- No key is lost, and none is new. -/
  perm : arranged.Perm given
  /-- Mappings that are not deep enough keep their order. -/
  kept : depth < scope.sortFrom → arranged = given
  /-- All others are in order; only at depth zero it is the custom one. -/
  ordered : scope.sortFrom ≤ depth →
    arranged.Pairwise (if depth = 0 then Precedes scope.order else CodeText.Before)

/-- The precedence at a depth is the custom one at depth zero and that by code elsewhere. -/
theorem precedes_orderAt (scope : Scope) (depth : Nat) :
    Precedes (scope.orderAt depth)
      = if depth = 0 then Precedes scope.order else CodeText.Before := by
  unfold Scope.orderAt
  split
  · rfl
  · funext s t
    exact propext (precedes_nil s t)

/-- Keys can be arranged in one way only. -/
theorem KeysArranged.unique {scope : Scope} {depth : Nat} {given s t : List CodeText}
    (hs : KeysArranged scope depth given s) (ht : KeysArranged scope depth given t) : s = t := by
  by_cases hdepth : scope.sortFrom ≤ depth
  · have hs' := hs.ordered hdepth
    have ht' := ht.ordered hdepth
    rw [← precedes_orderAt] at hs' ht'
    exact eq_of_pairwise_precedes hs' ht' (hs.perm.trans ht.perm.symm)
  · rw [hs.kept (not_le.mp hdepth), ht.kept (not_le.mp hdepth)]

/-- Arranged keys are arranged again as they are. -/
theorem KeysArranged.self {scope : Scope} {depth : Nat} {given arranged : List CodeText}
    (h : KeysArranged scope depth given arranged) : KeysArranged scope depth arranged arranged where
  perm := List.Perm.refl _
  kept := fun _ => rfl
  ordered := h.ordered

/-! ## Arranging members -/

section Arrange

variable {α : Type} (scope : Scope) (depth : Nat)

/-- The keys of arranged members stand as they are to. -/
theorem keysArranged_arrange (pairs : List (CodeText × α)) (hkeys : (pairs.map Prod.fst).Nodup) :
    KeysArranged scope depth (pairs.map Prod.fst) ((scope.arrange depth pairs).map Prod.fst) where
  perm := (arrange_perm scope depth pairs).map Prod.fst
  kept := by
    intro hdepth
    rw [Scope.arrange, if_neg (not_le.mpr hdepth)]
  ordered := by
    intro hdepth
    rw [Scope.arrange, if_pos hdepth, ← precedes_orderAt]
    exact pairwise_precedes_sortByRank _ pairs hkeys

/-- Arranged members have distinct keys if the members had. -/
theorem nodup_keys_arrange {pairs : List (CodeText × α)} (hkeys : (pairs.map Prod.fst).Nodup) :
    ((scope.arrange depth pairs).map Prod.fst).Nodup :=
  ((arrange_perm scope depth pairs).map Prod.fst).nodup_iff.mpr hkeys

end Arrange

/-! ## Sorted members -/

/-- Members with distinct string keys are their own named members. -/
theorem namedMembers_stringMembers {members : List (CodeText × Value)}
    (hkeys : (members.map Prod.fst).Nodup) : namedMembers (stringMembers members) = members := by
  have hnames : (stringMembers members).map (fun m => (m.1.name, m.2)) = members := by
    simp [stringMembers, Function.comp_def]
  rw [namedMembers, hnames, mergeMembers_of_nodup hkeys]

/-- A mapping with distinct string keys is sorted by arranging its sorted members. -/
theorem sortValue_map (scope : Scope) (depth : Nat) {members : List (CodeText × Value)}
    (hkeys : (members.map Prod.fst).Nodup) :
    sortValue scope depth (.map (stringMembers members))
      = .map (stringMembers
          (scope.arrange depth (mapValues (sortValue scope (depth + 1)) members))) := by
  rw [sortValue_map_eq, namedMembers_stringMembers hkeys]

/-- Scalars are sorted already. -/
theorem sortValue_of_isScalar (scope : Scope) (depth : Nat) {v : Value} (h : v.IsScalar) :
    sortValue scope depth v = v := by
  cases v <;> first | rfl | exact absurd h id

/-- A sorted member comes from a member with the same key. -/
theorem mem_arrange_mapValues {scope : Scope} {depth : Nat} {f : Value → Value}
    {members : List (CodeText × Value)} {m : CodeText × Value} :
    m ∈ scope.arrange depth (mapValues f members) ↔ ∃ m' ∈ members, (m'.1, f m'.2) = m := by
  rw [(arrange_perm scope depth _).mem_iff, mapValues, List.mem_map]

/-- Sorting a value keeps its shape and its scalars. -/
theorem Value.IsTree.sortValue {good : Value → Prop} (scope : Scope) {v : Value}
    (h : v.IsTree good) (depth : Nat) : (sortValue scope depth v).IsTree good := by
  induction h generalizing depth with
  | scalar hscalar hgood =>
      rw [sortValue_of_isScalar scope depth hscalar]
      exact .scalar hscalar hgood
  | @list items _ ih =>
      rw [KeyOrder.sortValue, sortItems_eq_map]
      refine .list fun w hw => ?_
      obtain ⟨v, hv, rfl⟩ := List.mem_map.mp hw
      exact ih v hv depth
  | @map members hkeys hgood _ ih =>
      rw [sortValue_map scope depth hkeys]
      refine .map (nodup_keys_arrange scope depth (by rwa [keys_mapValues])) ?_ ?_
      · intro m hm
        obtain ⟨m', hm', rfl⟩ := mem_arrange_mapValues.mp hm
        exact hgood m' hm'
      · intro m hm
        obtain ⟨m', hm', rfl⟩ := mem_arrange_mapValues.mp hm
        exact ih m' hm' (depth + 1)

/-- Sorting a value keeps its nesting. -/
theorem nesting_sortValue {good : Value → Prop} (scope : Scope) {v : Value} (h : v.IsTree good)
    (depth : Nat) : (sortValue scope depth v).nesting = v.nesting := by
  induction h generalizing depth with
  | scalar hscalar _ => rw [sortValue_of_isScalar scope depth hscalar]
  | @list items _ ih =>
      rw [sortValue, sortItems_eq_map, Value.nesting, Value.nesting]
      congr 1
      -- Two greatest nestings are equal if they have the same bounds.
      refine eq_of_forall_ge_iff fun n => ?_
      rw [nestingOfItems_le_iff, nestingOfItems_le_iff, List.forall_mem_map]
      exact forall₂_congr fun v hv => by rw [ih v hv depth]
  | @map members hkeys _ _ ih =>
      rw [sortValue_map scope depth hkeys, Value.nesting, Value.nesting]
      congr 1
      refine eq_of_forall_ge_iff fun n => ?_
      rw [nestingOfStringMembers_le_iff, nestingOfStringMembers_le_iff]
      simp only [(arrange_perm scope depth _).mem_iff, mapValues, List.forall_mem_map]
      exact forall₂_congr fun m hm => by rw [ih m hm (depth + 1)]

/-! ## The sorted form -/

/-- The sorted form of a value that stands at a depth. -/
inductive Arranged (scope : Scope) : Nat → Value → Value → Prop
  /-- Scalars stay. -/
  | scalar {depth : Nat} {v : Value} (h : v.IsScalar) : Arranged scope depth v v
  /-- Items stay where they are, at the depth of their list. -/
  | list {depth : Nat} {items items' : List Value} (hlength : items'.length = items.length)
      (h : ∀ i (hi : i < items.length) (hi' : i < items'.length),
        Arranged scope depth items[i] items'[i]) :
      Arranged scope depth (.list items) (.list items')
  /-- Keys stand as they are to, each with the sorted form of its own value one level deeper. -/
  | map {depth : Nat} {members members' : List (CodeText × Value)}
      (hkeys : KeysArranged scope depth (members.map Prod.fst) (members'.map Prod.fst))
      (h : ∀ m ∈ members, ∀ m' ∈ members', m.1 = m'.1 → Arranged scope (depth + 1) m.2 m'.2) :
      Arranged scope depth (.map (stringMembers members)) (.map (stringMembers members'))

/-- The sorted form of a mapping is a mapping with arranged keys. -/
theorem Arranged.of_map {scope : Scope} {depth : Nat} {members : List (CodeText × Value)}
    {r : Value} (h : Arranged scope depth (.map (stringMembers members)) r) :
    ∃ members', r = .map (stringMembers members') ∧
      KeysArranged scope depth (members.map Prod.fst) (members'.map Prod.fst) ∧
      ∀ m ∈ members, ∀ m' ∈ members', m.1 = m'.1 → Arranged scope (depth + 1) m.2 m'.2 := by
  generalize hv : Value.map (stringMembers members) = v at h
  cases h with
  | scalar hscalar => rw [← hv] at hscalar; exact hscalar.elim
  | list _ _ => cases hv
  | @map _ given members' hkeys h =>
      obtain rfl := stringMembers_injective (Value.map.inj hv)
      exact ⟨members', rfl, hkeys, h⟩

/-- Sorting finds a sorted form. -/
theorem arranged_sortValue {good : Value → Prop} (scope : Scope) {v : Value} (h : v.IsTree good)
    (depth : Nat) : Arranged scope depth v (sortValue scope depth v) := by
  induction h generalizing depth with
  | scalar hscalar _ =>
      rw [sortValue_of_isScalar scope depth hscalar]
      exact .scalar hscalar
  | @list items _ ih =>
      rw [sortValue, sortItems_eq_map]
      refine .list (List.length_map _) fun i hi hi' => ?_
      rw [List.getElem_map]
      exact ih _ (List.getElem_mem hi) depth
  | @map members hkeys _ _ ih =>
      rw [sortValue_map scope depth hkeys]
      refine .map ?_ fun m hm m' hm' hkey => ?_
      · have harr := keysArranged_arrange scope depth
          (mapValues (sortValue scope (depth + 1)) members) (by rwa [keys_mapValues])
        rwa [keys_mapValues] at harr
      · obtain ⟨given, hgiven, rfl⟩ := mem_arrange_mapValues.mp hm'
        obtain rfl := eq_of_mem_of_key_eq hkeys hm hgiven hkey
        exact ih m hm (depth + 1)

/-- There is no other sorted form than the one that sorting finds. -/
theorem Arranged.eq_sortValue {good : Value → Prop} {scope : Scope} {v : Value}
    (hv : v.IsTree good) {depth : Nat} {r : Value} (h : Arranged scope depth v r) :
    r = sortValue scope depth v := by
  induction hv generalizing depth r with
  | scalar hscalar _ =>
      rw [sortValue_of_isScalar scope depth hscalar]
      cases h with
      | scalar _ => rfl
      | list _ _ => exact hscalar.elim
      | map _ _ => exact hscalar.elim
  | @list items _ ih =>
      cases h with
      | scalar hscalar => exact hscalar.elim
      | @list _ _ items' hlength h =>
          rw [sortValue, sortItems_eq_map]
          congr 1
          apply List.ext_getElem (by rw [List.length_map, hlength])
          intro i hi hi'
          have hitem : i < items.length := by rwa [List.length_map] at hi'
          rw [List.getElem_map]
          exact ih _ (List.getElem_mem hitem) (h i hitem hi)
  | @map members hkeys _ _ ih =>
      obtain ⟨members', rfl, hkeys', h⟩ := h.of_map
      rw [sortValue_map scope depth hkeys]
      congr 2
      -- The keys can stand in one way only, and the value of each is settled by induction.
      refine eq_of_keys_eq ?_ fun m' hm' s hs hkey => ?_
      · have harr := keysArranged_arrange scope depth
          (mapValues (sortValue scope (depth + 1)) members) (by rwa [keys_mapValues])
        rw [keys_mapValues] at harr
        exact hkeys'.unique harr
      · obtain ⟨m, hm, rfl⟩ := mem_arrange_mapValues.mp hs
        exact ih m hm (h m hm m' hm' hkey.symm)

/-- A value with distinct string keys has one sorted form. -/
theorem arranged_iff {good : Value → Prop} {scope : Scope} {v : Value} (hv : v.IsTree good)
    {depth : Nat} {r : Value} : Arranged scope depth v r ↔ r = sortValue scope depth v := by
  constructor
  · exact fun h => h.eq_sortValue hv
  · rintro rfl
    exact arranged_sortValue scope hv depth

/-- A sorted form is its own sorted form. -/
theorem Arranged.self {good : Value → Prop} {scope : Scope} {v : Value} (hv : v.IsTree good)
    {depth : Nat} {r : Value} (h : Arranged scope depth v r) : Arranged scope depth r r := by
  induction hv generalizing depth r with
  | scalar hscalar _ =>
      cases h with
      | scalar _ => exact .scalar hscalar
      | list _ _ => exact hscalar.elim
      | map _ _ => exact hscalar.elim
  | @list items _ ih =>
      cases h with
      | scalar hscalar => exact hscalar.elim
      | @list _ _ items' hlength h =>
          refine .list rfl fun i hi _ => ?_
          have hitem : i < items.length := by rwa [hlength] at hi
          exact ih _ (List.getElem_mem hitem) (h i hitem hi)
  | @map members hkeys _ _ ih =>
      obtain ⟨members', rfl, hkeys', h⟩ := h.of_map
      have hdistinct : (members'.map Prod.fst).Nodup := hkeys'.perm.nodup_iff.mpr hkeys
      refine .map hkeys'.self fun s hs t ht hkey => ?_
      obtain rfl := eq_of_mem_of_key_eq hdistinct hs ht hkey
      -- The member comes from one of the given mapping, whose sorted form its value is.
      have hkey' : s.1 ∈ members.map Prod.fst := hkeys'.perm.mem_iff.mp (List.mem_map_of_mem hs)
      obtain ⟨m, hm, hms⟩ := List.mem_map.mp hkey'
      exact ih m hm (h m hm s hs hms)

/-- Sorting what is sorted changes nothing. -/
theorem sortValue_sortValue {good : Value → Prop} (scope : Scope) {v : Value} (h : v.IsTree good)
    (depth : Nat) : sortValue scope depth (sortValue scope depth v) = sortValue scope depth v :=
  (((arranged_sortValue scope h depth).self h).eq_sortValue (h.sortValue scope depth)).symm

/-! ## Sorting from a depth on -/

/-- Values with distinct string keys can be sorted. -/
theorem Value.IsTree.isSortable {good : Value → Prop} {v : Value} (h : v.IsTree good) :
    v.IsSortable := by
  induction h with
  | scalar hscalar _ => exact .scalar hscalar
  | list _ ih => exact .list ih
  | map _ _ _ ih =>
      exact .map (isSome_name?_stringMembers _) (List.forall_mem_map.mpr ih)

/-- A value with distinct string keys is sorted unless it is nested too deeply. -/
theorem sortFromDepth_of_isTree [Platform] {good : Value → Prop} {v : Value} (h : v.IsTree good)
    (sortFrom : Nat) (order : List CodeText) :
    sortFromDepth v sortFrom order =
      if Platform.maxSortedNesting < v.nesting then .error .nestedTooDeeply
      else .ok (sortValue ⟨sortFrom, order⟩ 0 v) := by
  rw [sortFromDepth, if_neg (Int.not_lt.mpr (Int.natCast_nonneg sortFrom))]
  simp only [Int.toNat_natCast, h.isSortable.obstacle?]

/-- So it is where the depth is given as an integer. -/
theorem sortFromDepth_of_nonneg [Platform] {good : Value → Prop} {v : Value} (h : v.IsTree good)
    {sortFrom : Int} (hdepth : 0 ≤ sortFrom) (order : List CodeText) :
    sortFromDepth v sortFrom order =
      if Platform.maxSortedNesting < v.nesting then .error .nestedTooDeeply
      else .ok (sortValue ⟨sortFrom.toNat, order⟩ 0 v) := by
  rw [← sortFromDepth_of_isTree h, Int.toNat_of_nonneg hdepth]

/-- Sorting a value with distinct string keys from a depth on gives a result exactly if the value is
not nested too deeply, and the result is then the sorted form, of which there is one. -/
theorem sortFromDepth_eq_ok_iff_arranged [Platform] (v : Value) (hv : v.IsJson) (sortFrom : Nat)
    (order : List CodeText) :
    (∃! r, Arranged ⟨sortFrom, order⟩ 0 v r) ∧
      ∀ r, sortFromDepth v sortFrom order = .ok r ↔
        v.nesting ≤ Platform.maxSortedNesting ∧ Arranged ⟨sortFrom, order⟩ 0 v r := by
  constructor
  · refine ⟨sortValue ⟨sortFrom, order⟩ 0 v, arranged_sortValue _ hv 0, fun r hr => ?_⟩
    exact hr.eq_sortValue hv
  · intro r
    rw [sortFromDepth_of_isTree hv, arranged_iff hv]
    split
    · next hdeep =>
      constructor
      · intro h
        cases h
      · intro h
        exact absurd h.1 (not_le.mpr hdeep)
    · next hdeep =>
      constructor
      · intro h
        exact ⟨not_lt.mp hdeep, (Except.ok.inj h).symm⟩
      · rintro ⟨-, rfl⟩
        rfl

/-- A listed key comes first in the root, and a mapping in a list is sorted by code. -/
theorem arranged_nested :
    ∃ v r : Value, v.IsJson ∧
      v = .map (stringMembers [(codeText "a", .null),
        (codeText "b", .list [.map (stringMembers
          [(codeText "b", .int 2), (codeText "a", .bool true)])])]) ∧
      r = .map (stringMembers [(codeText "b", .list [.map (stringMembers
          [(codeText "a", .bool true), (codeText "b", .int 2)])]), (codeText "a", .null)]) ∧
      Arranged ⟨0, [codeText "b"]⟩ 0 v r := by
  have hinner : (Value.map (stringMembers
      [(codeText "b", .int 2), (codeText "a", .bool true)])).IsJson := by
    refine .map (by decide) (fun _ _ => trivial) ?_
    simp only [List.forall_mem_cons]
    exact ⟨.scalar trivial trivial, .scalar trivial trivial, List.forall_mem_nil _⟩
  have houter : (Value.map (stringMembers [(codeText "a", .null),
      (codeText "b", .list [.map (stringMembers
        [(codeText "b", .int 2), (codeText "a", .bool true)])])])).IsJson := by
    refine .map (by decide) (fun _ _ => trivial) ?_
    simp only [List.forall_mem_cons]
    refine ⟨.scalar trivial trivial, .list ?_, List.forall_mem_nil _⟩
    exact List.forall_mem_singleton.mpr hinner
  refine ⟨_, _, houter, rfl, rfl, ?_⟩
  have hspec := (sortFromDepth_eq_ok_iff_arranged _ houter 0 [codeText "b"]).2
  exact ((hspec _).mp (by cbv)).2

end KeyOrder
