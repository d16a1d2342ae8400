import KeyOrder.Proofs.Composition
import KeyOrder.Sorting.Shallow
/-!
# Sorting the root first

A mapping with string keys is sorted whole by sorting its root alone and then everything
below it.  Sorting the root alone looks at the keys and leaves all values as they are, and
at the depths below the root both ways of sorting go through every mapping in one order,
so they also refuse the same values.
-/

namespace KeyOrder

/-! ## The root alone -/

/-- String keys are compared by code. -/
theorem not_lt_str (s t : CodeText) :
    (!(Key.str t).lt (.str s)) = (rankIn [] s).le (rankIn [] t) := by
  have htotal := rank_le_total [] s t
  have hcompare : (Key.str t).compare? (.str s) = some (orderingOfLe CodeText.le t s) := by
    simp [Key.compare?, Key.keyClass, KeyClass.compare?]
  rw [rankIn_of_not_mem List.not_mem_nil, rankIn_of_not_mem List.not_mem_nil] at htotal ⊢
  simp only [Rank.le, Key.lt, hcompare, orderingOfLe] at htotal ⊢
  cases hst : s.le t <;> cases hts : t.le s <;> simp_all

/-- String keys all have an order. -/
theorem keysAreOrdered_str (keys : List CodeText) : keysAreOrdered (keys.map Key.str) = true := by
  induction keys with
  | nil => rfl
  | cons s keys ih => rw [List.map_cons, keysAreOrdered, ih]; rfl

/-- Sorting the root alone sorts its members by the code of their keys. -/
theorem sortRoot_stringMembers (members : List (CodeText × Value)) :
    sortRoot (.map (stringMembers members)) = .map (stringMembers (sortByRank [] members)) := by
  have hkeys : (stringMembers members).map Prod.fst = (members.map Prod.fst).map Key.str := by
    simp [stringMembers]
  rw [sortRoot, sortByKey, hkeys, if_pos (keysAreOrdered_str _), stringMembers, stringMembers,
    sortByRank]
  exact congrArg _ (List.map_mergeSort fun m _ m' _ => (not_lt_str m.1 m'.1).symm).symm

/-! ## Below the root -/

section Below

variable {m n : Nat} {order : List CodeText}

/-- At depths that are sorted anyway members are arranged alike, wherever sorting starts. -/
theorem arrange_eq_of_le {α : Type} {depth : Nat} (hm : m ≤ depth) (hn : n ≤ depth)
    (pairs : List (CodeText × α)) :
    (Scope.mk m order).arrange depth pairs = (Scope.mk n order).arrange depth pairs := by
  rw [Scope.arrange, Scope.arrange, if_pos hm, if_pos hn]
  rfl

/-- A value at such a depth is sorted alike. -/
theorem sortValue_eq_of_le {depth : Nat} (hm : m ≤ depth) (hn : n ≤ depth) (v : Value) :
    sortValue ⟨m, order⟩ depth v = sortValue ⟨n, order⟩ depth v := by
  induction v using Value.inductionOn generalizing depth with
  | scalar v hscalar => rw [sortValue_of_isScalar _ _ hscalar, sortValue_of_isScalar _ _ hscalar]
  | list items ih | tuple items ih =>
      rw [sortValue, sortValue, sortItems_eq_map, sortItems_eq_map]
      exact congrArg _ (List.map_congr_left fun v hv => ih v hv hm hn)
  | map members ih =>
      have hmembers : sortMembers ⟨m, order⟩ (depth + 1) members
          = sortMembers ⟨n, order⟩ (depth + 1) members := by
        rw [sortMembers_eq_mapValues, sortMembers_eq_mapValues, mapValues, mapValues, List.map_map,
          List.map_map]
        refine List.map_congr_left fun member hmember => ?_
        exact congrArg (Prod.mk _) (ih member hmember (Nat.le_succ_of_le hm) (Nat.le_succ_of_le hn))
      rw [sortValue, sortValue, hmembers, arrange_eq_of_le hm hn]
  | object typeName content => rfl

/-- A value at such a depth is refused alike. -/
theorem obstacle?_eq_of_le {depth : Nat} (hm : m ≤ depth) (hn : n ≤ depth) (v : Value) :
    obstacle? ⟨m, order⟩ depth v = obstacle? ⟨n, order⟩ depth v := by
  induction v using Value.inductionOn generalizing depth with
  | scalar v hscalar =>
      rw [(Value.IsSortable.scalar hscalar).obstacle?,
        (Value.IsSortable.scalar hscalar).obstacle?]
  | list items ih | tuple items ih =>
      rw [obstacle?, obstacle?, itemObstacle?_eq_findSome?, itemObstacle?_eq_findSome?]
      have hfound := congrArg (List.findSome? id) (List.map_congr_left fun v hv => ih v hv hm hn)
      rwa [List.findSome?_map, List.findSome?_map, Function.id_comp, Function.id_comp] at hfound
  | map members ih =>
      have hmembers : memberObstacles ⟨m, order⟩ (depth + 1) members
          = memberObstacles ⟨n, order⟩ (depth + 1) members := by
        rw [memberObstacles_eq_map, memberObstacles_eq_map]
        refine List.map_congr_left fun member hmember => ?_
        exact congrArg (Prod.mk _) (ih member hmember (Nat.le_succ_of_le hm) (Nat.le_succ_of_le hn))
      rw [obstacle?, obstacle?, hmembers, arrange_eq_of_le hm hn]
  | object typeName content => rfl

end Below

/-! ## Both ways -/

/-- Values of the same nesting that are refused alike and sorted alike have the same result. -/
theorem sortFromDepth_congr [Platform] {v w : Value} {m n : Nat} {order : List CodeText}
    (hnesting : v.nesting = w.nesting)
    (hrefused : obstacle? ⟨m, order⟩ 0 v = obstacle? ⟨n, order⟩ 0 w)
    (hsorted : sortValue ⟨m, order⟩ 0 v = sortValue ⟨n, order⟩ 0 w) :
    sortFromDepth v m order = sortFromDepth w n order := by
  rw [sortFromDepth, sortFromDepth, if_neg (Int.not_lt.mpr (Int.natCast_nonneg m)),
    if_neg (Int.not_lt.mpr (Int.natCast_nonneg n)), Int.toNat_natCast, Int.toNat_natCast, hnesting]
  simp only [hrefused, hsorted]

/-- String members stand under their keys, whatever is made of their values. -/
theorem map_name_stringMembers {α : Type} (f : Value → α) (members : List (CodeText × Value)) :
    (stringMembers members).map (fun m => (m.1.name, f m.2))
      = members.map fun m => (m.1, f m.2) := by
  simp [stringMembers, Function.comp_def]

/-- Rearranged members nest as deeply. -/
theorem nesting_stringMembers_perm {members others : List (CodeText × Value)}
    (h : others.Perm members) :
    (Value.map (stringMembers others)).nesting = (Value.map (stringMembers members)).nesting := by
  rw [Value.nesting, Value.nesting]
  congr 1
  refine eq_of_forall_ge_iff fun n => ?_
  rw [nestingOfStringMembers_le_iff, nestingOfStringMembers_le_iff]
  simp only [h.mem_iff]

section Root

variable (members : List (CodeText × Value))

/-- What is made of members and arranged at the root may be made of sorted members instead, which
then stay as they are. -/
theorem arrange_sortByRank {α : Type} (f : Value → α) :
    (Scope.mk 1 []).arrange 0 ((sortByRank [] members).map fun m => (m.1, f m.2))
      = (Scope.mk 0 []).arrange 0 (members.map fun m => (m.1, f m.2)) := by
  rw [arrange_map, arrange_map]
  rfl

/-- A mapping whose root is sorted is refused as the mapping is. -/
theorem obstacle?_sortByRank :
    obstacle? ⟨1, []⟩ 0 (.map (stringMembers (sortByRank [] members)))
      = obstacle? ⟨0, []⟩ 0 (.map (stringMembers members)) := by
  have hvalues : obstacle? ⟨1, []⟩ (0 + 1) = obstacle? ⟨0, []⟩ (0 + 1) :=
    funext (obstacle?_eq_of_le le_rfl (Nat.zero_le 1))
  rw [obstacle?, obstacle?, if_pos (areNamed_iff.mpr (isSome_name?_stringMembers _)),
    if_pos (areNamed_iff.mpr (isSome_name?_stringMembers _)), memberObstacles_eq_map,
    memberObstacles_eq_map, map_name_stringMembers, map_name_stringMembers, hvalues,
    arrange_sortByRank]

/-- A mapping whose root is sorted is sorted as the mapping is. -/
theorem sortValue_sortByRank :
    sortValue ⟨1, []⟩ 0 (.map (stringMembers (sortByRank [] members)))
      = sortValue ⟨0, []⟩ 0 (.map (stringMembers members)) := by
  have hvalues : sortValue ⟨1, []⟩ (0 + 1) = sortValue ⟨0, []⟩ (0 + 1) :=
    funext (sortValue_eq_of_le le_rfl (Nat.zero_le 1))
  have hmembers : ∀ scope row, sortMembers scope (0 + 1) (stringMembers row)
      = row.map fun m => (m.1, sortValue scope (0 + 1) m.2) := by
    intro scope row
    rw [sortMembers_eq_mapValues, mapValues, List.map_map]
    exact map_name_stringMembers _ row
  rw [sortValue, sortValue, hmembers, hmembers, hvalues, arrange_sortByRank]

/-- Sorting the root of a mapping with string keys rearranges its members by code and changes none
of them; sorting everything below the root then gives what sorting the whole mapping gives, and
there is a result if every value can be sorted and none is nested too deeply. -/
theorem sortAll_eq_sortFromDepth_sortRoot [Platform] :
    ∃ sorted : List (CodeText × Value),
      sortRoot (.map (stringMembers members)) = .map (stringMembers sorted) ∧
      sorted.Perm members ∧ (sorted.map Prod.fst).Pairwise (fun s t => ¬ t.Before s) ∧
      sortAll (.map (stringMembers members))
        = sortFromDepth (sortRoot (.map (stringMembers members))) 1 [] ∧
      ((∀ m ∈ members, m.2.IsSortable) →
        (Value.map (stringMembers members)).nesting ≤ Platform.maxSortedNesting →
        ∃ r, sortAll (.map (stringMembers members)) = .ok r) := by
  have hperm := sortByRank_perm [] members
  refine ⟨sortByRank [] members, sortRoot_stringMembers members, hperm, ?_, ?_, ?_⟩
  · rw [List.pairwise_map]
    refine (pairwise_le_sortByRank [] members).imp fun {m m'} hle => ?_
    rw [← precedes_nil]
    exact (rank_le_iff_not_precedes [] m.1 m'.1).mp hle
  · rw [sortRoot_stringMembers, sortAll]
    exact sortFromDepth_congr (nesting_stringMembers_perm hperm).symm
      (obstacle?_sortByRank members).symm (sortValue_sortByRank members).symm
  · intro hvalues hnesting
    have hsortable : (Value.map (stringMembers members)).IsSortable :=
      .map (isSome_name?_stringMembers members) (List.forall_mem_map.mpr hvalues)
    exact ⟨_, sortFromDepth_eq_ok_iff.mpr ⟨le_rfl, hnesting, hsortable, rfl⟩⟩

end Root

/-- Members out of order, of which the first one has a mapping with integer keys in a tuple. -/
def unsortedMembers : List (CodeText × Value) :=
  [(codeText "b", .tuple [.map [(.int 9, .null), (.int 10, .bool true)]]), (codeText "a", .int 0)]

/-- Sorting the root leaves the tuple and the integer keys as they are, and sorting below it then
finishes what sorting all at once does. -/
theorem sortAll_unsortedMembers :
    ∃ sorted r,
      sortRoot (.map (stringMembers unsortedMembers)) = .map (stringMembers sorted) ∧
      sorted = [(codeText "a", .int 0),
        (codeText "b", .tuple [.map [(.int 9, .null), (.int 10, .bool true)]])] ∧
      sortFromDepth (.map (stringMembers sorted)) 1 [] = .ok r ∧
      sortAll (.map (stringMembers unsortedMembers)) = .ok r ∧
      r = .map (stringMembers [(codeText "a", .int 0), (codeText "b", .list [.map (stringMembers
        [(codeText "10", .bool true), (codeText "9", .null)])])]) := by
  obtain ⟨sorted, hroot, -, -, hboth, hresult⟩ := sortAll_eq_sortFromDepth_sortRoot unsortedMembers
  have hmapping : (Value.map [(.int 9, .null), (.int 10, .bool true)]).IsSortable :=
    .map (by decide) (List.forall_mem_cons.mpr
      ⟨.scalar trivial, List.forall_mem_singleton.mpr (.scalar trivial)⟩)
  have hvalues : ∀ m ∈ unsortedMembers, m.2.IsSortable :=
    List.forall_mem_cons.mpr ⟨.tuple (List.forall_mem_singleton.mpr hmapping),
      List.forall_mem_singleton.mpr (.scalar trivial)⟩
  obtain ⟨r, hr⟩ := hresult hvalues (by decide)
  refine ⟨sorted, r, hroot, ?_, ?_, hr, ?_⟩
  · refine (stringMembers_injective (Value.map.inj (hroot.symm.trans ?_)))
    cbv
  · rw [← hroot, ← hboth, hr]
  · refine Except.ok.inj (hr.symm.trans ?_)
    cbv

end KeyOrder
