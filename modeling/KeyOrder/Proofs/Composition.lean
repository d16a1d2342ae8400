import KeyOrder.Proofs.Arrangement
/-!
# Sorting a value twice

Sorting leaves lists, and mappings with distinct string keys, nested no deeper than the
value was; so what is sorted can be sorted again.  Sorting it once more from another depth
on gives what sorting from the lesser depth on gives at once, whatever keys have become
equal as names.
-/

namespace KeyOrder

/-! ## What sorting leaves -/

/-- A sorted value has distinct string keys. -/
theorem Value.IsSortable.isJson_sortValue {v : Value} (h : v.IsSortable) (scope : Scope)
    (depth : Nat) : (sortValue scope depth v).IsJson := by
  induction h generalizing depth with
  | scalar hscalar =>
      rw [sortValue_of_isScalar scope depth hscalar]
      exact .scalar hscalar trivial
  | list _ ih =>
      rw [sortValue, sortItems_eq_map]
      exact .list (List.forall_mem_map.mpr fun v hv => ih v hv depth)
  | tuple _ ih =>
      rw [sortValue, sortItems_eq_map]
      exact .list (List.forall_mem_map.mpr fun v hv => ih v hv depth)
  | @map members _ _ ih =>
      rw [sortValue_map_eq]
      refine .map ?_ (fun _ _ => trivial) fun m hm => ?_
      · refine nodup_keys_arrange scope depth ?_
        rw [keys_mapValues]
        exact nodup_keys_namedMembers members
      · obtain ⟨named, hnamed, rfl⟩ := mem_arrange_mapValues.mp hm
        obtain ⟨given, hgiven, rfl⟩ := exists_mem_of_mem_namedMembers hnamed
        exact ih given hgiven (depth + 1)

/-- Sorting a value nests nothing deeper. -/
theorem Value.IsSortable.nesting_sortValue_le {v : Value} (h : v.IsSortable) (scope : Scope)
    (depth : Nat) : (sortValue scope depth v).nesting ≤ v.nesting := by
  induction h generalizing depth with
  | scalar hscalar => rw [sortValue_of_isScalar scope depth hscalar]
  | @list items _ ih =>
      rw [sortValue, sortItems_eq_map]
      refine Nat.succ_le_succ (nestingOfItems_le_iff.mpr (List.forall_mem_map.mpr fun v hv => ?_))
      exact (ih v hv depth).trans (nestingOfItems_le_iff.mp le_rfl v hv)
  | @tuple items _ ih =>
      rw [sortValue, sortItems_eq_map]
      refine Nat.succ_le_succ (nestingOfItems_le_iff.mpr (List.forall_mem_map.mpr fun v hv => ?_))
      exact (ih v hv depth).trans (nestingOfItems_le_iff.mp le_rfl v hv)
  | @map members _ _ ih =>
      rw [sortValue_map_eq]
      refine Nat.succ_le_succ (nestingOfStringMembers_le_iff.mpr fun m hm => ?_)
      obtain ⟨named, hnamed, rfl⟩ := mem_arrange_mapValues.mp hm
      obtain ⟨given, hgiven, rfl⟩ := exists_mem_of_mem_namedMembers hnamed
      exact (ih given hgiven (depth + 1)).trans (nestingOfMembers_le_iff.mp le_rfl given hgiven)

/-! ## Sorting twice -/

/-- Sorting a sorted value once more is sorting it from the lesser depth on. -/
theorem Value.IsSortable.sortValue_min {v : Value} (h : v.IsSortable) (m n : Nat)
    (order : List CodeText) (depth : Nat) :
    sortValue ⟨n, order⟩ depth (sortValue ⟨m, order⟩ depth v)
      = sortValue ⟨min m n, order⟩ depth v := by
  induction h generalizing depth with
  | scalar hscalar => simp only [sortValue_of_isScalar _ depth hscalar]
  | list _ ih =>
      simp only [sortValue, sortItems_eq_map, List.map_map]
      exact congrArg _ (List.map_congr_left fun v hv => ih v hv depth)
  | tuple _ ih =>
      simp only [sortValue, sortItems_eq_map, List.map_map]
      exact congrArg _ (List.map_congr_left fun v hv => ih v hv depth)
  | @map members _ _ ih =>
      have hnames := nodup_keys_namedMembers members
      have hkeys : ((Scope.arrange ⟨m, order⟩ depth (mapValues (sortValue ⟨m, order⟩ (depth + 1))
          (namedMembers members))).map Prod.fst).Nodup :=
        nodup_keys_arrange ⟨m, order⟩ depth (by rwa [keys_mapValues])
      -- Each value is sorted twice one level deeper, and the names are arranged twice.
      have hvalues : mapValues (sortValue ⟨n, order⟩ (depth + 1))
          (mapValues (sortValue ⟨m, order⟩ (depth + 1)) (namedMembers members))
            = mapValues (sortValue ⟨min m n, order⟩ (depth + 1)) (namedMembers members) := by
        rw [mapValues, mapValues, List.map_map]
        refine List.map_congr_left fun named hnamed => ?_
        obtain ⟨given, hgiven, rfl⟩ := exists_mem_of_mem_namedMembers hnamed
        exact congrArg (Prod.mk _) (ih given hgiven (depth + 1))
      rw [sortValue_map_eq ⟨m, order⟩, sortValue_map ⟨n, order⟩ depth hkeys, mapValues,
        ← arrange_map, ← mapValues, hvalues, arrange_arrange, sortValue_map_eq]

/-! ## Sorting from two depths on -/

/-- A value is sorted from a depth on exactly if the depth is not negative, the value is not nested
too deeply and it can be sorted. -/
theorem sortFromDepth_eq_ok_iff [Platform] {v w : Value} {sortFrom : Int} {order : List CodeText} :
    sortFromDepth v sortFrom order = .ok w ↔
      0 ≤ sortFrom ∧ v.nesting ≤ Platform.maxSortedNesting ∧ v.IsSortable ∧
        w = sortValue ⟨sortFrom.toNat, order⟩ 0 v := by
  unfold sortFromDepth
  split
  · next hneg => exact iff_of_false nofun fun h => hneg.not_ge h.1
  · next hneg =>
    split
    · next hdeep => exact iff_of_false nofun fun h => hdeep.not_ge h.2.1
    · next hdeep =>
      simp only
      split
      · next error herror =>
        refine iff_of_false nofun fun h => ?_
        rw [h.2.2.1.obstacle?] at herror
        cases herror
      · next hnone =>
        rw [Except.ok.injEq]
        refine ⟨fun h => ?_, fun h => h.2.2.2.symm⟩
        exact ⟨not_lt.mp hneg, not_lt.mp hdeep, Value.isSortable_of_obstacle? hnone, h.symm⟩

/-- A value that is sorted from some depth on is sorted from any two depths on, one after the other,
and the result is the value sorted from the lesser one on. -/
theorem sortFromDepth_sortFromDepth [Platform] {v w : Value} {sortFrom : Int} {keys : List CodeText}
    (h : sortFromDepth v sortFrom keys = .ok w) {m n : Int} (hm : 0 ≤ m) (hn : 0 ≤ n)
    (order : List CodeText) :
    ∃ sorted result, sortFromDepth v m order = .ok sorted ∧
      sortFromDepth sorted n order = .ok result ∧
      sortFromDepth v (min m n) order = .ok result := by
  obtain ⟨-, hnesting, hv, -⟩ := sortFromDepth_eq_ok_iff.mp h
  have hsorted := hv.isJson_sortValue ⟨m.toNat, order⟩ 0
  refine ⟨sortValue ⟨m.toNat, order⟩ 0 v, sortValue ⟨n.toNat, order⟩ 0
    (sortValue ⟨m.toNat, order⟩ 0 v), ?_, ?_, ?_⟩
  · exact sortFromDepth_eq_ok_iff.mpr ⟨hm, hnesting, hv, rfl⟩
  · have hle := (hv.nesting_sortValue_le ⟨m.toNat, order⟩ 0).trans hnesting
    rw [sortFromDepth_of_nonneg hsorted hn, if_neg (not_lt.mpr hle)]
  · have hmin : (min m n).toNat = min m.toNat n.toNat := by omega
    refine sortFromDepth_eq_ok_iff.mpr ⟨le_min hm hn, hnesting, hv, ?_⟩
    rw [hmin, hv.sortValue_min]

/-- Members whose keys only differ in kind, the second of them with a tuple, and one more. -/
def collidingKeys : Value :=
  .map [(.int 10, .list [.null]),
    (.str (codeText "b"), .tuple [.map [(.bool true, .null), (.str (codeText "A"), .int 1)]]),
    (.str (codeText "10"), .bool false)]

/-- First the mapping in the tuple is sorted, and then the root too: at both levels this is what
sorting all at once gives, and the later one of the members with the same name has replaced the
earlier one. -/
theorem sortFromDepth_collidingKeys :
    ∃ sorted result, sortFromDepth collidingKeys 1 [codeText "b"] = .ok sorted ∧
      sorted = .map (stringMembers [(codeText "10", .bool false),
        (codeText "b", .list [.map (stringMembers
          [(codeText "A", .int 1), (codeText "True", .null)])])]) ∧
      sortFromDepth sorted 0 [codeText "b"] = .ok result ∧
      result = .map (stringMembers [(codeText "b", .list [.map (stringMembers
        [(codeText "A", .int 1), (codeText "True", .null)])]), (codeText "10", .bool false)]) ∧
      sortFromDepth collidingKeys 0 [codeText "b"] = .ok result := by
  have hsorted : sortFromDepth collidingKeys 1 [codeText "b"]
      = .ok (.map (stringMembers [(codeText "10", .bool false),
        (codeText "b", .list [.map (stringMembers
          [(codeText "A", .int 1), (codeText "True", .null)])])])) := by cbv
  obtain ⟨sorted, result, hfirst, hsecond, hboth⟩ :=
    sortFromDepth_sortFromDepth hsorted (by decide : (0 : Int) ≤ 1) (le_refl 0) [codeText "b"]
  refine ⟨sorted, result, hfirst, ?_, hsecond, ?_, hboth⟩
  · exact Except.ok.inj (hfirst.symm.trans hsorted)
  · refine Except.ok.inj (hboth.symm.trans ?_)
    cbv

end KeyOrder
