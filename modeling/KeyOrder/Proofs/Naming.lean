import KeyOrder.Proofs.Precedence
import KeyOrder.Proofs.Shape
import KeyOrder.Sorting.Depth
/-!
# Members by name

A value that is handed over may have tuples, keys of any kind, and keys that only become
equal as names.  Sorting a mapping names its keys, arranges the members and merges those
with the same name; as it is stable, they may as well be merged before they are arranged.
It fails only for keys without a name and for objects of other types, wherever they stand.
-/

namespace KeyOrder

/-! ## Arranging and merging -/

section Arrange

variable {α β : Type}

/-- Arranging members loses none and adds none. -/
theorem arrange_perm (scope : Scope) (depth : Nat) (pairs : List (CodeText × α)) :
    (scope.arrange depth pairs).Perm pairs := by
  unfold Scope.arrange
  split
  · exact sortByRank_perm _ pairs
  · exact List.Perm.refl pairs

/-- Sorting by rank is stable: pairs with the same key stand as they stood. -/
theorem filter_key_sortByRank (order : List CodeText) (pairs : List (CodeText × α))
    (key : CodeText) :
    (sortByRank order pairs).filter (·.1 = key) = pairs.filter (·.1 = key) := by
  have hequal : (pairs.filter (·.1 = key)).Pairwise
      fun p q => (rankIn order p.1).le (rankIn order q.1) = true := by
    refine List.pairwise_of_forall_mem_list fun p hp q hq => (rank_le_iff order p.1 q.1).mpr ?_
    rw [of_decide_eq_true (List.mem_filter.mp hp).2, of_decide_eq_true (List.mem_filter.mp hq).2]
    exact Or.inr rfl
  have hsub : (pairs.filter (·.1 = key)).Sublist (sortByRank order pairs) :=
    List.sublist_mergeSort (fun p q r => rank_le_trans order p.1 q.1 r.1)
      (fun p q => rank_le_total order p.1 q.1) hequal List.filter_sublist
  have hfiltered := hsub.filter (·.1 = key)
  rw [List.filter_filter] at hfiltered
  simp only [Bool.and_self] at hfiltered
  have hlength := ((sortByRank_perm order pairs).filter (·.1 = key)).length_eq
  exact (hfiltered.eq_of_length hlength.symm).symm

/-- Members may be merged before they are sorted by rank or after: pairs with the same key are next
to each other afterwards, the last one last. -/
theorem mergeMembers_sortByRank (order : List CodeText) (pairs : List (CodeText × α)) :
    mergeMembers (sortByRank order pairs) = sortByRank order (mergeMembers pairs) := by
  have hdistinct := nodup_keys_mergeMembers (sortByRank order pairs)
  have hmem : ∀ m, m ∈ mergeMembers (sortByRank order pairs) ↔
      m ∈ sortByRank order (mergeMembers pairs) := by
    intro m
    rw [mem_mergeMembers_iff, filter_key_sortByRank, (sortByRank_perm order _).mem_iff,
      mem_mergeMembers_iff]
  have hordered : ((mergeMembers (sortByRank order pairs)).map Prod.fst).Pairwise
      (Precedes order) := by
    have hle : ((sortByRank order pairs).map Prod.fst).Pairwise
        fun s t => (rankIn order s).le (rankIn order t) = true :=
      List.pairwise_map.mpr (pairwise_le_sortByRank order pairs)
    refine ((hle.sublist (keys_mergeMembers_sublist _)).and hdistinct).imp ?_
    rintro s t ⟨hle, hne⟩
    exact ((rank_le_iff order s t).mp hle).resolve_right hne
  have hperm : (mergeMembers (sortByRank order pairs)).Perm
      (sortByRank order (mergeMembers pairs)) := by
    refine (List.perm_ext_iff_of_nodup hdistinct.of_map ?_).mpr hmem
    exact (sortByRank_perm order _).nodup_iff.mpr (nodup_keys_mergeMembers pairs).of_map
  refine eq_of_keys_eq ?_ fun m hm m' hm' hkey => ?_
  · exact eq_of_pairwise_precedes hordered
      (pairwise_precedes_sortByRank order _ (nodup_keys_mergeMembers pairs)) (hperm.map Prod.fst)
  · exact congrArg Prod.snd (eq_of_mem_of_key_eq hdistinct hm ((hmem m').mpr hm') hkey)

/-- Members may be merged before they are arranged or after. -/
theorem mergeMembers_arrange (scope : Scope) (depth : Nat) (pairs : List (CodeText × α)) :
    mergeMembers (scope.arrange depth pairs) = scope.arrange depth (mergeMembers pairs) := by
  unfold Scope.arrange
  split
  · exact mergeMembers_sortByRank _ pairs
  · rfl

/-- Values do not matter for arranging members. -/
theorem arrange_map (scope : Scope) (depth : Nat) (f : α → β) (pairs : List (CodeText × α)) :
    scope.arrange depth (pairs.map fun m => (m.1, f m.2))
      = (scope.arrange depth pairs).map fun m => (m.1, f m.2) := by
  unfold Scope.arrange
  split
  · exact (List.map_mergeSort (f := fun m : CodeText × α => (m.1, f m.2)) fun _ _ _ _ => rfl).symm
  · rfl

/-- Arranged members are arranged from the lesser of two depths on. -/
theorem arrange_arrange (m n : Nat) (order : List CodeText) (depth : Nat)
    (pairs : List (CodeText × α)) :
    (Scope.mk n order).arrange depth ((Scope.mk m order).arrange depth pairs)
      = (Scope.mk (min m n) order).arrange depth pairs := by
  have hagain : ∀ keys, sortByRank keys (sortByRank keys pairs) = sortByRank keys pairs :=
    fun keys => List.mergeSort_of_pairwise (pairwise_le_sortByRank keys pairs)
  simp only [Scope.arrange, Scope.orderAt, min_le_iff]
  by_cases hm : m ≤ depth <;> by_cases hn : n ≤ depth <;> simp [hm, hn, hagain]

end Arrange

/-! ## Sorted values -/

/-- Members with what a function makes of their values. -/
def mapValues (f : Value → Value) (members : List (CodeText × Value)) : List (CodeText × Value) :=
  members.map fun m => (m.1, f m.2)

/-- Changing values leaves the keys alone. -/
@[simp] theorem keys_mapValues (f : Value → Value) (members : List (CodeText × Value)) :
    (mapValues f members).map Prod.fst = members.map Prod.fst := by
  simp [mapValues]

/-- Sorting within items sorts each of them. -/
theorem sortItems_eq_map (scope : Scope) (depth : Nat) (items : List Value) :
    sortItems scope depth items = items.map (sortValue scope depth) := by
  induction items with
  | nil => rfl
  | cons v items ih => rw [sortItems, ih, List.map_cons]

/-! ## Members by name -/

/-- The members of a mapping under the names of their keys. -/
def namedMembers (members : List (Key × Value)) : List (CodeText × Value) :=
  mergeMembers (members.map fun m => (m.1.name, m.2))

/-- Sorting within members names them and sorts each of their values. -/
theorem sortMembers_eq_mapValues (scope : Scope) (depth : Nat) (members : List (Key × Value)) :
    sortMembers scope depth members
      = mapValues (sortValue scope depth) (members.map fun m => (m.1.name, m.2)) := by
  induction members with
  | nil => rfl
  | cons m members ih =>
      rw [sortMembers, ih]
      rfl

/-- Named members have distinct names. -/
theorem nodup_keys_namedMembers (members : List (Key × Value)) :
    ((namedMembers members).map Prod.fst).Nodup :=
  nodup_keys_mergeMembers _

/-- A named member has the value of a member. -/
theorem exists_mem_of_mem_namedMembers {members : List (Key × Value)} {m : CodeText × Value}
    (h : m ∈ namedMembers members) : ∃ m' ∈ members, (m'.1.name, m'.2) = m :=
  List.mem_map.mp (mem_of_mem_mergeMembers h)

/-- A mapping is sorted by arranging its sorted members under their names. -/
theorem sortValue_map_eq (scope : Scope) (depth : Nat) (members : List (Key × Value)) :
    sortValue scope depth (.map members) = .map (stringMembers
      (scope.arrange depth (mapValues (sortValue scope (depth + 1)) (namedMembers members)))) := by
  rw [sortValue, Value.ofMembers, sortMembers_eq_mapValues, mergeMembers_arrange, mapValues,
    mergeMembers_map]
  rfl

/-! ## Values that can be sorted -/

/-- Values whose mappings have named keys and that hold no objects of other types. -/
inductive Value.IsSortable : Value → Prop
  | scalar {v : Value} (h : v.IsScalar) : IsSortable v
  | list {items : List Value} (h : ∀ v ∈ items, IsSortable v) : IsSortable (.list items)
  | tuple {items : List Value} (h : ∀ v ∈ items, IsSortable v) : IsSortable (.tuple items)
  | map {members : List (Key × Value)} (hnamed : ∀ m ∈ members, m.1.name?.isSome)
      (h : ∀ m ∈ members, IsSortable m.2) : IsSortable (.map members)

/-- All keys of members have names exactly if each of them has one. -/
theorem areNamed_iff {members : List (Key × Value)} :
    areNamed members = true ↔ ∀ m ∈ members, m.1.name?.isSome :=
  List.all_eq_true

/-- String members have names. -/
theorem isSome_name?_stringMembers (members : List (CodeText × Value)) :
    ∀ m ∈ stringMembers members, m.1.name?.isSome :=
  List.forall_mem_map.mpr fun _ _ => rfl

/-- What members hold that cannot be sorted is what each of their values holds. -/
theorem memberObstacles_eq_map (scope : Scope) (depth : Nat) (members : List (Key × Value)) :
    memberObstacles scope depth members
      = members.map fun m => (m.1.name, obstacle? scope depth m.2) := by
  induction members with
  | nil => rfl
  | cons m members ih =>
      rw [memberObstacles, ih]
      rfl

/-- A mapping can be sorted exactly if its keys have names and each value in it can be sorted. -/
theorem obstacle?_map_eq_none_iff {scope : Scope} {depth : Nat} {members : List (Key × Value)} :
    obstacle? scope depth (.map members) = none ↔
      (∀ m ∈ members, m.1.name?.isSome) ∧
        ∀ m ∈ members, obstacle? scope (depth + 1) m.2 = none := by
  rw [obstacle?, ← areNamed_iff]
  by_cases hnamed : areNamed members = true
  · rw [if_pos hnamed, and_iff_right hnamed, memberObstacles_eq_map, List.findSome?_eq_none_iff]
    simp only [(arrange_perm scope depth _).mem_iff, List.forall_mem_map]
  · rw [if_neg hnamed]
    exact iff_of_false (Option.some_ne_none _) fun h => hnamed h.1

/-- What is met first among items is what is met in the first item that has anything. -/
theorem itemObstacle?_eq_findSome? (scope : Scope) (depth : Nat) (items : List Value) :
    itemObstacle? scope depth items = items.findSome? (obstacle? scope depth) := by
  induction items with
  | nil => rfl
  | cons v items ih =>
      rw [itemObstacle?, ih, List.findSome?_cons]
      cases obstacle? scope depth v <;> rfl

/-- A row of items can be sorted exactly if each item can be. -/
theorem itemObstacle?_eq_none_iff {scope : Scope} {depth : Nat} {items : List Value} :
    itemObstacle? scope depth items = none ↔ ∀ v ∈ items, obstacle? scope depth v = none := by
  rw [itemObstacle?_eq_findSome?, List.findSome?_eq_none_iff]

/-- Nothing is met in values that can be sorted. -/
theorem Value.IsSortable.obstacle? {v : Value} (h : v.IsSortable) (scope : Scope)
    (depth : Nat) : obstacle? scope depth v = none := by
  induction h generalizing depth with
  | @scalar v hscalar => cases v <;> first | rfl | exact hscalar.elim
  | list _ ih => exact itemObstacle?_eq_none_iff.mpr fun v hv => ih v hv depth
  | tuple _ ih => exact itemObstacle?_eq_none_iff.mpr fun v hv => ih v hv depth
  | map hnamed _ ih =>
      exact obstacle?_map_eq_none_iff.mpr ⟨hnamed, fun m hm => ih m hm (depth + 1)⟩

/-- Values in which nothing is met can be sorted. -/
theorem Value.isSortable_of_obstacle? {scope : Scope} {v : Value} {depth : Nat}
    (h : KeyOrder.obstacle? scope depth v = none) : v.IsSortable := by
  induction v using Value.inductionOn generalizing depth with
  | scalar v hscalar => exact .scalar hscalar
  | list items ih => exact .list fun v hv => ih v hv (itemObstacle?_eq_none_iff.mp h v hv)
  | tuple items ih => exact .tuple fun v hv => ih v hv (itemObstacle?_eq_none_iff.mp h v hv)
  | map members ih =>
      obtain ⟨hnamed, hvalues⟩ := obstacle?_map_eq_none_iff.mp h
      exact .map hnamed fun m hm => ih m hm (hvalues m hm)
  | object typeName content => cases h

end KeyOrder
