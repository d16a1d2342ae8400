import KeyOrder.Proofs.Shape
/-!
# Parts of values

A value stands in another one if it is reached from it through lists, tuples and the values
of members.  What holds of a whole tree holds of everything that stands in it.
-/

namespace KeyOrder

/-- A value stands in another one: it is that value, or it stands in an item of it or in the value
of a member of it. -/
inductive Value.StandsIn (u : Value) : Value → Prop
  | self : StandsIn u u
  | list {items : List Value} {v : Value} (hv : v ∈ items) (h : StandsIn u v) :
      StandsIn u (.list items)
  | tuple {items : List Value} {v : Value} (hv : v ∈ items) (h : StandsIn u v) :
      StandsIn u (.tuple items)
  | map {members : List (Key × Value)} {m : Key × Value} (hm : m ∈ members)
      (h : StandsIn u m.2) : StandsIn u (.map members)

/-- A decoded string is one of a value's: a string that stands in it, or the key of a mapping that
does. -/
def Value.HasString (v : Value) (s : CodeText) : Prop :=
  (Value.str s).StandsIn v ∨
    ∃ members, (Value.map members).StandsIn v ∧ .str s ∈ members.map Prod.fst

/-- What stands in a tree is a tree of the same class. -/
theorem Value.IsTree.of_standsIn {good : Value → Prop} {u v : Value} (hv : v.IsTree good)
    (h : u.StandsIn v) : u.IsTree good := by
  induction h with
  | self => exact hv
  | list hmem _ ih =>
      cases hv with
      | scalar hscalar _ => exact hscalar.elim
      | list hitems => exact ih (hitems _ hmem)
  | tuple _ _ _ =>
      cases hv with
      | scalar hscalar _ => exact hscalar.elim
  | map hmem _ ih =>
      cases hv with
      | scalar hscalar _ => exact hscalar.elim
      | map _ _ hvalues =>
          obtain ⟨m, hm, rfl⟩ := List.mem_map.mp hmem
          exact ih (hvalues m hm)

/-- The strings of a tree are of its class. -/
theorem Value.IsTree.of_hasString {good : Value → Prop} {v : Value} (hv : v.IsTree good)
    {s : CodeText} (h : v.HasString s) : good (.str s) := by
  rcases h with h | ⟨members, h, hkey⟩
  · cases hv.of_standsIn h with
    | scalar _ hgood => exact hgood
  · cases hv.of_standsIn h with
    | scalar hscalar _ => exact hscalar.elim
    | map _ hkeys _ =>
        obtain ⟨_, hmem, hsame⟩ := List.mem_map.mp hkey
        obtain ⟨m, hm, rfl⟩ := List.mem_map.mp hmem
        obtain rfl := Key.str.inj hsame
        exact hkeys m hm

end KeyOrder
