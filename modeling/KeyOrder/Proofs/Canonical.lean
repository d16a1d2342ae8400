import KeyOrder.Proofs.Arrangement
import KeyOrder.Proofs.RoundTrip
/-!
# The canonical text of a document

Two values are reorderings of each other if they differ in nothing but the order of
the members of their mappings.  If every mapping is sorted, reorderings have the
same sorted form, and so the same text; and the printed text tells apart all others.
-/

namespace KeyOrder

/-! ## Reorderings -/

/-- Two values are equal up to the order of members in mappings at every level. -/
inductive Value.Reordered : Value → Value → Prop
  | scalar {v : Value} (h : v.IsScalar) : Reordered v v
  | list {items items' : List Value} (hlength : items'.length = items.length)
      (h : ∀ i (hi : i < items.length) (hi' : i < items'.length),
        Reordered items[i] items'[i]) : Reordered (.list items) (.list items')
  | map {members members' : List (CodeText × Value)}
      (hkeys : (members'.map Prod.fst).Perm (members.map Prod.fst))
      (h : ∀ m ∈ members, ∀ m' ∈ members', m.1 = m'.1 → Reordered m.2 m'.2) :
      Reordered (.map (stringMembers members)) (.map (stringMembers members'))

namespace Value.Reordered

/-- A reordering of a mapping is a mapping with the same keys and reorderings of their values. -/
theorem of_map {members : List (CodeText × Value)} {w : Value}
    (h : Reordered (.map (stringMembers members)) w) :
    ∃ members', w = .map (stringMembers members') ∧
      (members'.map Prod.fst).Perm (members.map Prod.fst) ∧
      ∀ m ∈ members, ∀ m' ∈ members', m.1 = m'.1 → Reordered m.2 m'.2 := by
  generalize hv : Value.map (stringMembers members) = v at h
  cases h with
  | scalar hscalar => rw [← hv] at hscalar; exact hscalar.elim
  | list _ _ => cases hv
  | @map _ members' hkeys h =>
      obtain rfl := stringMembers_injective (Value.map.inj hv)
      exact ⟨members', rfl, hkeys, h⟩

/-- Reordering can be undone. -/
theorem symm {v w : Value} (h : Reordered v w) : Reordered w v := by
  induction h with
  | scalar h => exact .scalar h
  | list hlength _ ih => exact .list hlength.symm fun i hi hi' => ih i hi' hi
  | map hkeys _ ih =>
      exact .map hkeys.symm fun m hm m' hm' hkey => ih m' hm' m hm hkey.symm

/-- A reordering of a reordering is a reordering. -/
theorem trans {u v w : Value} (h : Reordered u v) (h' : Reordered v w) : Reordered u w := by
  induction h generalizing w with
  | scalar _ => exact h'
  | list hlength _ ih =>
      cases h' with
      | scalar hscalar => exact hscalar.elim
      | list hlength' hitems =>
          refine .list (hlength'.trans hlength) fun i hi hi' => ?_
          have hi'' := hi.trans_eq hlength.symm
          exact ih i hi hi'' (hitems i hi'' hi')
  | @map members members' hkeys _ ih =>
      obtain ⟨members'', rfl, hkeys', hvalues⟩ := h'.of_map
      refine .map (hkeys'.trans hkeys) fun m hm m'' hm'' hkey => ?_
      -- The mapping between the two has a member with this key as well.
      have hmem : m.1 ∈ members'.map Prod.fst := hkeys.mem_iff.mpr (List.mem_map_of_mem hm)
      obtain ⟨m', hm', hkey'⟩ := List.mem_map.mp hmem
      exact ih m hm m' hm' hkey'.symm (hvalues m' hm' m'' hm'' (hkey'.trans hkey))

/-- What is sorted from depth zero on arranges all reorderings in the same way. -/
theorem arranged {v w : Value} (h : Reordered v w) {order : List CodeText} {depth : Nat} {r : Value}
    (hr : Arranged ⟨0, order⟩ depth w r) : Arranged ⟨0, order⟩ depth v r := by
  induction h generalizing depth r with
  | scalar _ => exact hr
  | list hlength _ ih =>
      cases hr with
      | scalar hscalar => exact hscalar.elim
      | list hlength' hitems =>
          refine .list (hlength'.trans hlength) fun i hi hi' => ?_
          have hi'' := hi.trans_eq hlength.symm
          exact ih i hi hi'' (hitems i hi'' hi')
  | @map members members' hkeys _ ih =>
      obtain ⟨arranged, rfl, harranged, hvalues⟩ := hr.of_map
      refine .map ⟨harranged.perm.trans hkeys, ?_, harranged.ordered⟩ ?_
      · intro hdepth
        exact absurd hdepth (Nat.not_lt_zero depth)
      · intro m hm r hr hkey
        -- The reordered mapping has a member with this key too.
        have hmem : m.1 ∈ members'.map Prod.fst := hkeys.mem_iff.mpr (List.mem_map_of_mem hm)
        obtain ⟨m', hm', hkey'⟩ := List.mem_map.mp hmem
        exact ih m hm m' hm' hkey'.symm (hvalues m' hm' r hr (hkey'.trans hkey))

end Value.Reordered

/-- A sorted form is a reordering. -/
theorem Arranged.reordered {scope : Scope} {depth : Nat} {v r : Value}
    (h : Arranged scope depth v r) : v.Reordered r := by
  induction h with
  | scalar h => exact .scalar h
  | list hlength _ ih => exact .list hlength ih
  | map hkeys _ ih => exact .map hkeys.perm ih

/-- A value with distinct string keys is a reordering of itself. -/
theorem Value.IsTree.reordered_self {good : Value → Prop} {v : Value} (h : v.IsTree good) :
    v.Reordered v := by
  have hsorted := (arranged_sortValue ⟨0, []⟩ h 0).reordered
  exact hsorted.trans hsorted.symm

/-- Two values have the same sorted form exactly if they are reorderings of each other. -/
theorem sortValue_eq_iff_reordered {v w : Value} (hv : v.IsJson) (hw : w.IsJson)
    (order : List CodeText) :
    sortValue ⟨0, order⟩ 0 v = sortValue ⟨0, order⟩ 0 w ↔ v.Reordered w := by
  have hv' := arranged_sortValue ⟨0, order⟩ hv 0
  have hw' := arranged_sortValue ⟨0, order⟩ hw 0
  constructor
  · intro h
    rw [← h] at hw'
    exact hv'.reordered.trans hw'.reordered.symm
  · intro h
    exact ((h.arranged hw').eq_sortValue hv).symm

/-! ## Canonical texts -/

namespace Json

/-- If every mapping is sorted, two documents get the same text exactly if their values are equal
up to the order of members. -/
theorem format_sortFromDepth_eq_iff_reordered [Platform] {text₁ text₂ : Text} {v₁ v₂ : Value}
    (h₁ : parseDocument text₁ = .ok v₁) (h₂ : parseDocument text₂ = .ok v₂)
    (hn₁ : v₁.nesting ≤ Platform.maxSortedNesting) (hn₂ : v₂.nesting ≤ Platform.maxSortedNesting)
    (order : List CodeText) (layout : Layout) :
    ∃ sorted₁ sorted₂ printed₁ printed₂,
      sortFromDepth v₁ 0 order = .ok sorted₁ ∧ format layout sorted₁ = .ok printed₁ ∧
      sortFromDepth v₂ 0 order = .ok sorted₂ ∧ format layout sorted₂ = .ok printed₂ ∧
      (printed₁ = printed₂ ↔ v₁.Reordered v₂) := by
  obtain ⟨hd₁, hm₁⟩ := isDocument_of_parseDocument h₁
  obtain ⟨hd₂, hm₂⟩ := isDocument_of_parseDocument h₂
  have hs₁ := Value.IsTree.sortValue ⟨0, order⟩ hd₁ 0
  have hs₂ := Value.IsTree.sortValue ⟨0, order⟩ hd₂ 0
  have hsort₁ := sortFromDepth_of_isTree hd₁ 0 order
  have hsort₂ := sortFromDepth_of_isTree hd₂ 0 order
  rw [if_neg (Nat.not_lt.mpr hn₁)] at hsort₁
  rw [if_neg (Nat.not_lt.mpr hn₂)] at hsort₂
  refine ⟨_, _, _, _, hsort₁, format_of_isDocument layout hs₁, hsort₂,
    format_of_isDocument layout hs₂, ?_⟩
  rw [← sortValue_eq_iff_reordered hd₁.isJson hd₂.isJson order]
  constructor
  · intro h
    rw [← nesting_sortValue ⟨0, order⟩ hd₁ 0] at hm₁
    rw [← nesting_sortValue ⟨0, order⟩ hd₂ 0] at hm₂
    exact printDocument_inj hs₁ hm₁ hs₂ hm₂ h
  · intro h
    rw [h]

/-- Two texts with the same members in another order get the same text. -/
theorem format_sortFromDepth_swapped :
    ∃ v₁ v₂ sorted₁ sorted₂ printed,
      parseDocument "\x7b\n\t\"b\": [\n\t\ttrue\n\t],\n\t\"a\": null\n\x7d\n".toList = .ok v₁ ∧
      parseDocument "\x7b\n \"a\": null,\n \"b\": [\n  true\n ]\n\x7d\n".toList = .ok v₂ ∧
      sortFromDepth v₁ 0 [codeText "c"] = .ok sorted₁ ∧ format .tabs sorted₁ = .ok printed ∧
      sortFromDepth v₂ 0 [codeText "c"] = .ok sorted₂ ∧ format .tabs sorted₂ = .ok printed := by
  have hb : (Value.list [.bool true]).IsDocument :=
    .list (List.forall_mem_singleton.mpr (.scalar trivial trivial))
  have ha : Value.null.IsDocument := .scalar trivial trivial
  have hkey : ∀ s ∈ [codeText "a", codeText "b"], (Value.str s).IsDocumentScalar := by
    show ∀ s ∈ [codeText "a", codeText "b"], s.IsJoined
    decide
  have h₁ : (Value.map (stringMembers
      [(codeText "b", .list [.bool true]), (codeText "a", .null)])).IsDocument := by
    refine .map (by decide) ?_ ?_
    · simp only [List.forall_mem_cons]
      exact ⟨hkey _ (by decide), hkey _ (by decide), List.forall_mem_nil _⟩
    · simp only [List.forall_mem_cons]
      exact ⟨hb, ha, List.forall_mem_nil _⟩
  have h₂ : (Value.map (stringMembers
      [(codeText "a", .null), (codeText "b", .list [.bool true])])).IsDocument := by
    refine .map (by decide) ?_ ?_
    · simp only [List.forall_mem_cons]
      exact ⟨hkey _ (by decide), hkey _ (by decide), List.forall_mem_nil _⟩
    · simp only [List.forall_mem_cons]
      exact ⟨ha, hb, List.forall_mem_nil _⟩
  have hread₁ := parseDocument_printDocument .tabs h₁ (by decide)
  have hread₂ := parseDocument_printDocument (.spaces 0) h₂ (by decide)
  obtain ⟨sorted₁, sorted₂, printed₁, printed₂, hsort₁, hprint₁, hsort₂, hprint₂, hiff⟩ :=
    format_sortFromDepth_eq_iff_reordered hread₁ hread₂ (by decide) (by decide) [codeText "c"] .tabs
  have hreordered : (Value.map (stringMembers
      [(codeText "b", .list [.bool true]), (codeText "a", .null)])).Reordered
      (.map (stringMembers [(codeText "a", .null), (codeText "b", .list [.bool true])])) := by
    refine .map (by decide) ?_
    simp only [List.forall_mem_cons]
    refine ⟨⟨fun h => absurd h (by decide), fun _ => hb.reordered_self, List.forall_mem_nil _⟩,
      ⟨fun _ => ha.reordered_self, fun h => absurd h (by decide), List.forall_mem_nil _⟩,
      List.forall_mem_nil _⟩
  rw [hiff.mpr hreordered] at hprint₁
  exact ⟨_, _, _, _, _, hread₁, hread₂, hsort₁, hprint₁, hsort₂, hprint₂⟩

end Json

end KeyOrder
