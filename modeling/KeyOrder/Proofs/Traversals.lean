import KeyOrder.Proofs.Arrangement
/-!
# The order of a traversal

Sorting goes through the members of a mapping in some order before it merges those with the
same name: in their new order where the mapping is to be sorted, and as they stand where it
is not.  This order is determined by what it must be: every member is visited, names come in
order, and members with the same name as they stand.
-/

namespace KeyOrder

/-! ## Stable orders -/

section Stable

variable {α : Type} {key : α → CodeText} {row row' : List α}

/-- Rows that have the same items with each key have the same items. -/
theorem mem_iff_of_filter_eq (h : ∀ s, row.filter (key · = s) = row'.filter (key · = s)) (a : α) :
    a ∈ row ↔ a ∈ row' := by
  have hfilter : a ∈ row.filter (key · = key a) ↔ a ∈ row'.filter (key · = key a) := by
    rw [h]
  simpa using hfilter

/-- A row with its keys in order is determined by the rows of items with each key. -/
theorem eq_of_filter_eq {order : List CodeText}
    (hrow : row.Pairwise fun a b => ¬ Precedes order (key b) (key a))
    (hrow' : row'.Pairwise fun a b => ¬ Precedes order (key b) (key a))
    (h : ∀ s, row.filter (key · = s) = row'.filter (key · = s)) : row = row' := by
  induction row generalizing row' with
  | nil =>
      refine (List.eq_nil_iff_forall_not_mem.mpr fun a ha => ?_).symm
      exact List.not_mem_nil ((mem_iff_of_filter_eq h a).mpr ha)
  | cons a row ih =>
      have ha := (mem_iff_of_filter_eq h a).mp List.mem_cons_self
      cases row' with
      | nil => exact absurd ha List.not_mem_nil
      | cons b row' =>
          have hb := (mem_iff_of_filter_eq h b).mpr List.mem_cons_self
          obtain ⟨hfirst, hrest⟩ := List.pairwise_cons.mp hrow
          obtain ⟨hfirst', hrest'⟩ := List.pairwise_cons.mp hrow'
          have hab : ¬ Precedes order (key a) (key b) := by
            rcases List.mem_cons.mp ha with rfl | ha
            · exact fun h => h.asymm h
            · exact hfirst' a ha
          have hba : ¬ Precedes order (key b) (key a) := by
            rcases List.mem_cons.mp hb with rfl | hb
            · exact fun h => h.asymm h
            · exact hfirst b hb
          -- The first items have the same key, so each is the first one with that key.
          have hkey : key b = key a := eq_of_not_precedes hba hab
          have hhead := h (key a)
          rw [List.filter_cons_of_pos (by simp), List.filter_cons_of_pos (by simp [hkey])] at hhead
          obtain rfl := (List.cons.inj hhead).1
          refine congrArg (a :: ·) (ih hrest hrest' fun s => ?_)
          have hs := h s
          by_cases has : key a = s
          · rw [List.filter_cons_of_pos (by simpa using has),
              List.filter_cons_of_pos (by simpa using has)] at hs
            exact (List.cons.inj hs).2
          · rwa [List.filter_cons_of_neg (by simpa using has),
              List.filter_cons_of_neg (by simpa using has)] at hs

end Stable

/-! ## The order of a traversal -/

/-- The order in which the members of a mapping at a depth are gone through. -/
structure Scope.Traverses (scope : Scope) (depth : Nat) (members visited : List (Key × Value)) :
    Prop where
  /-- Every member is visited. -/
  perm : visited.Perm members
  /-- A mapping that is not deep enough is gone through as it stands. -/
  kept : depth < scope.sortFrom → visited = members
  /-- In all others no name is visited after one that it precedes; only at depth zero the custom
  order decides. -/
  ordered : scope.sortFrom ≤ depth → visited.Pairwise fun m m' =>
    ¬ (if depth = 0 then Precedes scope.order else CodeText.Before) m'.1.name m.1.name
  /-- Members with the same name are visited as they stand. -/
  stable : ∀ name, visited.filter (·.1.name = name) = members.filter (·.1.name = name)

/-- The members of a mapping at a depth under their names. -/
def underNames (members : List (Key × Value)) : List (CodeText × (Key × Value)) :=
  members.map fun m => (m.1.name, m)

/-- The members of a mapping at a depth, arranged by their names but not merged. -/
def Scope.visited (scope : Scope) (depth : Nat) (members : List (Key × Value)) :
    List (Key × Value) :=
  (scope.arrange depth (underNames members)).map Prod.snd

/-- Members without the names beside them. -/
@[simp] theorem map_snd_underNames (members : List (Key × Value)) :
    (underNames members).map Prod.snd = members := by
  simp [underNames, Function.comp_def]

section Traversal

variable {scope : Scope} {depth : Nat} {members visited : List (Key × Value)}

/-- Arranged members stand beside their own names. -/
theorem fst_of_mem_arrange {p : CodeText × (Key × Value)}
    (h : p ∈ scope.arrange depth (underNames members)) : p.1 = p.2.1.name := by
  obtain ⟨m, -, rfl⟩ := List.mem_map.mp ((arrange_perm scope depth _).mem_iff.mp h)
  rfl

/-- Arranging is stable: pairs with the same key stand as they stood. -/
theorem filter_key_arrange {α : Type} (pairs : List (CodeText × α)) (key : CodeText) :
    (scope.arrange depth pairs).filter (·.1 = key) = pairs.filter (·.1 = key) := by
  unfold Scope.arrange
  split
  · exact filter_key_sortByRank _ pairs key
  · rfl

/-- Members are gone through as they are arranged. -/
theorem Scope.traverses_visited (scope : Scope) (depth : Nat) (members : List (Key × Value)) :
    scope.Traverses depth members (scope.visited depth members) where
  perm := by
    have hperm := (arrange_perm scope depth (underNames members)).map Prod.snd
    rwa [map_snd_underNames] at hperm
  kept := by
    intro hdepth
    rw [visited, arrange, if_neg (not_le.mpr hdepth), map_snd_underNames]
  ordered := by
    intro hdepth
    rw [visited, List.pairwise_map, ← precedes_orderAt]
    have hle : (scope.arrange depth (underNames members)).Pairwise fun p q =>
        (rankIn (scope.orderAt depth) p.1).le (rankIn (scope.orderAt depth) q.1) = true := by
      rw [arrange, if_pos hdepth]
      exact pairwise_le_sortByRank _ _
    refine hle.imp_of_mem fun {p q} hp hq hpq => ?_
    rw [fst_of_mem_arrange hp, fst_of_mem_arrange hq] at hpq
    exact (rank_le_iff_not_precedes _ _ _).mp hpq
  stable := by
    intro name
    have hnames : ∀ p ∈ scope.arrange depth (underNames members),
        decide (p.2.1.name = name) = decide (p.1 = name) := by
      intro p hp
      rw [fst_of_mem_arrange hp]
    calc (scope.visited depth members).filter (·.1.name = name)
      _ = ((scope.arrange depth (underNames members)).filter (·.1 = name)).map Prod.snd := by
        rw [visited, List.filter_map]
        exact congrArg _ (List.filter_congr hnames)
      _ = ((underNames members).filter (·.1 = name)).map Prod.snd := by
        rw [filter_key_arrange]
      _ = members.filter (·.1.name = name) := by
        simp [underNames, List.filter_map, Function.comp_def]

/-- Members are gone through in one order only. -/
theorem Scope.Traverses.eq_visited (h : scope.Traverses depth members visited) :
    visited = scope.visited depth members := by
  have harranged := scope.traverses_visited depth members
  by_cases hdepth : scope.sortFrom ≤ depth
  · have hordered := h.ordered hdepth
    have hordered' := harranged.ordered hdepth
    rw [← precedes_orderAt] at hordered hordered'
    exact eq_of_filter_eq hordered hordered' fun name =>
      (h.stable name).trans (harranged.stable name).symm
  · rw [h.kept (not_le.mp hdepth), harranged.kept (not_le.mp hdepth)]

end Traversal

end KeyOrder
