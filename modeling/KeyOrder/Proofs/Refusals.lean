import KeyOrder.Proofs.Composition
import KeyOrder.Proofs.Parts
import KeyOrder.Proofs.Spelling
import KeyOrder.Proofs.Traversals
/-!
# What sorting refuses

Sorting refuses a value exactly if an object of another type, or a mapping with a key that
has no name, stands somewhere in it, whatever the depth and the order are.  What it refuses
the value for does depend on them: it is the first of these met where mappings that are to
be sorted are gone through in their new order, before members with the same name are
merged, and all others as they stand.
-/

namespace KeyOrder

/-! ## Obstacles -/

/-- What a value is refused for on its own account: a mapping for a key without a name, and an
object of another type for its type. -/
def Value.ownObstacle? : Value → Option SortError
  | .map members => if areNamed members then none else some .unnamed
  | .object typeName _ => some (.unsupported typeName)
  | _ => none

/-- Something that is refused on its own account stands in a value. -/
def Value.HoldsObstacle (v : Value) : Prop :=
  ∃ u : Value, u.StandsIn v ∧ u.ownObstacle?.isSome

/-- An object of another type stands in a value. -/
def Value.HoldsUnsupported (v : Value) : Prop :=
  ∃ typeName content, (Value.object typeName content).StandsIn v

/-- All keys of the mappings that stand in a value have names. -/
def Value.HasNames (v : Value) : Prop :=
  ∀ members, (Value.map members).StandsIn v → ∀ m ∈ members, m.1.name?.isSome

/-- What the first value that is met in a value at a depth, and is refused on its own account, is
refused for. -/
inductive FirstObstacle (scope : Scope) : Nat → Value → SortError → Prop
  /-- The value is refused itself, before anything that stands in it. -/
  | here {depth : Nat} {v : Value} {error : SortError} (h : v.ownObstacle? = some error) :
      FirstObstacle scope depth v error
  /-- It is met in an item, and nothing is in the items before. -/
  | list {depth : Nat} {before after : List Value} {v : Value} {error : SortError}
      (hbefore : ∀ w ∈ before, ¬ w.HoldsObstacle) (h : FirstObstacle scope depth v error) :
      FirstObstacle scope depth (.list (before ++ v :: after)) error
  | tuple {depth : Nat} {before after : List Value} {v : Value} {error : SortError}
      (hbefore : ∀ w ∈ before, ¬ w.HoldsObstacle) (h : FirstObstacle scope depth v error) :
      FirstObstacle scope depth (.tuple (before ++ v :: after)) error
  /-- It is met in the value of a member, and nothing is in those of the members visited before. -/
  | map {depth : Nat} {members before after : List (Key × Value)} {m : Key × Value}
      {error : SortError} (hnamed : ∀ m ∈ members, m.1.name?.isSome)
      (hvisited : scope.Traverses depth members (before ++ m :: after))
      (hbefore : ∀ w ∈ before, ¬ w.2.HoldsObstacle)
      (h : FirstObstacle scope (depth + 1) m.2 error) :
      FirstObstacle scope depth (.map members) error

/-- A mapping is refused on its own account exactly if a key has no name. -/
theorem ownObstacle?_map_eq_none_iff {members : List (Key × Value)} :
    (Value.map members).ownObstacle? = none ↔ ∀ m ∈ members, m.1.name?.isSome := by
  rw [Value.ownObstacle?, ← areNamed_iff]
  cases areNamed members <;> simp

/-- A value that can be sorted is not refused on its own account. -/
theorem Value.IsSortable.ownObstacle? {v : Value} (h : v.IsSortable) : v.ownObstacle? = none := by
  cases h with
  | scalar hscalar => cases v <;> first | rfl | exact hscalar.elim
  | list _ | tuple _ => rfl
  | map hnamed _ => exact ownObstacle?_map_eq_none_iff.mpr hnamed

/-- What stands in a value that can be sorted can be sorted. -/
theorem Value.IsSortable.of_standsIn {u v : Value} (hv : v.IsSortable) (h : u.StandsIn v) :
    u.IsSortable := by
  induction h with
  | self => exact hv
  | list hmem _ ih =>
      cases hv with
      | scalar hscalar => exact hscalar.elim
      | list hitems => exact ih (hitems _ hmem)
  | tuple hmem _ ih =>
      cases hv with
      | scalar hscalar => exact hscalar.elim
      | tuple hitems => exact ih (hitems _ hmem)
  | map hmem _ ih =>
      cases hv with
      | scalar hscalar => exact hscalar.elim
      | map _ hvalues => exact ih (hvalues _ hmem)

/-- Nothing in a value is refused on its own account exactly if the value can be sorted. -/
theorem Value.not_holdsObstacle_iff {v : Value} : ¬ v.HoldsObstacle ↔ v.IsSortable := by
  constructor
  · intro h
    have hown : ∀ u : Value, u.StandsIn v → u.ownObstacle? = none := fun u hu =>
      Option.not_isSome_iff_eq_none.mp fun hsome => h ⟨u, hu, hsome⟩
    clear h
    induction v using Value.inductionOn with
    | scalar v hscalar => exact .scalar hscalar
    | list items ih => exact .list fun v hv => ih v hv fun u hu => hown u (.list hv hu)
    | tuple items ih => exact .tuple fun v hv => ih v hv fun u hu => hown u (.tuple hv hu)
    | map members ih =>
        exact .map (ownObstacle?_map_eq_none_iff.mp (hown _ .self)) fun m hm =>
          ih m hm fun u hu => hown u (.map hm hu)
    | object typeName content =>
        have hself := hown _ .self
        cases hself
  · rintro h ⟨u, hu, hsome⟩
    rw [(h.of_standsIn hu).ownObstacle?] at hsome
    cases hsome

/-- Where all keys have names, what is refused on its own account is an object of another type. -/
theorem Value.HasNames.holdsObstacle_iff {v : Value} (h : v.HasNames) :
    v.HoldsObstacle ↔ v.HoldsUnsupported := by
  constructor
  · rintro ⟨u, hu, herror⟩
    cases u with
    | object typeName content => exact ⟨typeName, content, hu⟩
    | map members =>
        rw [ownObstacle?_map_eq_none_iff.mpr (h members hu)] at herror
        cases herror
    | _ => cases herror
  · rintro ⟨typeName, content, hu⟩
    exact ⟨_, hu, rfl⟩

section First

variable {scope : Scope} {depth : Nat} {v : Value} {error : SortError}

/-- What comes first is what some value in it is refused for. -/
theorem FirstObstacle.exists_standsIn (h : FirstObstacle scope depth v error) :
    ∃ u : Value, u.StandsIn v ∧ u.ownObstacle? = some error := by
  induction h with
  | here h => exact ⟨_, .self, h⟩
  | list _ _ ih =>
      obtain ⟨u, hu, herror⟩ := ih
      exact ⟨u, .list (by simp) hu, herror⟩
  | tuple _ _ ih =>
      obtain ⟨u, hu, herror⟩ := ih
      exact ⟨u, .tuple (by simp) hu, herror⟩
  | map _ hvisited _ _ ih =>
      obtain ⟨u, hu, herror⟩ := ih
      exact ⟨u, .map (hvisited.perm.mem_iff.mp (by simp)) hu, herror⟩

/-- What is met first in a mapping with named keys is what is met in the first visited member that
has anything. -/
theorem obstacle?_map_eq {members : List (Key × Value)} (hnamed : ∀ m ∈ members, m.1.name?.isSome) :
    obstacle? scope depth (.map members)
      = (scope.visited depth members).findSome? fun m => obstacle? scope (depth + 1) m.2 := by
  have hpairs : memberObstacles scope (depth + 1) members
      = (underNames members).map fun p => (p.1, obstacle? scope (depth + 1) p.2.2) := by
    rw [memberObstacles_eq_map, underNames, List.map_map]
    rfl
  rw [obstacle?, if_pos (areNamed_iff.mpr hnamed), hpairs,
    arrange_map scope depth (fun m : Key × Value => obstacle? scope (depth + 1) m.2),
    List.findSome?_map, Scope.visited, List.findSome?_map]
  rfl

/-- Nothing is met exactly if nothing stands in the value, wherever that is. -/
theorem obstacle?_eq_none_iff : obstacle? scope depth v = none ↔ ¬ v.HoldsObstacle := by
  rw [Value.not_holdsObstacle_iff]
  exact ⟨Value.isSortable_of_obstacle?, fun h => h.obstacle? scope depth⟩

/-- What is met among items is met in one of them, and nothing in those before. -/
theorem itemObstacle?_eq_some_iff {items : List Value} :
    itemObstacle? scope depth items = some error ↔ ∃ before v after,
      items = before ++ v :: after ∧ obstacle? scope depth v = some error ∧
        ∀ w ∈ before, ¬ w.HoldsObstacle := by
  rw [itemObstacle?_eq_findSome?, List.findSome?_eq_some_iff]
  simp only [obstacle?_eq_none_iff]

/-- What is met in a mapping with named keys is met in the value of a member, and nothing in those
of the members visited before. -/
theorem obstacle?_map_eq_some_iff {members : List (Key × Value)}
    (hnamed : ∀ m ∈ members, m.1.name?.isSome) :
    obstacle? scope depth (.map members) = some error ↔ ∃ before m after,
      scope.Traverses depth members (before ++ m :: after) ∧
        obstacle? scope (depth + 1) m.2 = some error ∧ ∀ w ∈ before, ¬ w.2.HoldsObstacle := by
  rw [obstacle?_map_eq hnamed, List.findSome?_eq_some_iff]
  simp only [obstacle?_eq_none_iff]
  constructor
  · rintro ⟨before, m, after, hvisited, hfound⟩
    exact ⟨before, m, after, hvisited ▸ scope.traverses_visited depth members, hfound⟩
  · rintro ⟨before, m, after, hvisited, hfound⟩
    exact ⟨before, m, after, hvisited.eq_visited.symm, hfound⟩

/-- What comes first in a list comes first in one of the items, and nothing is in those before. -/
theorem firstObstacle_list_iff {items : List Value} :
    FirstObstacle scope depth (.list items) error ↔ ∃ before v after,
      items = before ++ v :: after ∧ FirstObstacle scope depth v error ∧
        ∀ w ∈ before, ¬ w.HoldsObstacle := by
  constructor
  · intro h
    cases h with
    | here h => cases h
    | list hbefore h => exact ⟨_, _, _, rfl, h, hbefore⟩
  · rintro ⟨before, v, after, rfl, h, hbefore⟩
    exact .list hbefore h

/-- So it is with tuples. -/
theorem firstObstacle_tuple_iff {items : List Value} :
    FirstObstacle scope depth (.tuple items) error ↔ ∃ before v after,
      items = before ++ v :: after ∧ FirstObstacle scope depth v error ∧
        ∀ w ∈ before, ¬ w.HoldsObstacle := by
  constructor
  · intro h
    cases h with
    | here h => cases h
    | tuple hbefore h => exact ⟨_, _, _, rfl, h, hbefore⟩
  · rintro ⟨before, v, after, rfl, h, hbefore⟩
    exact .tuple hbefore h

/-- What comes first in a mapping with named keys comes first in the value of a member, and nothing
is in those of the members visited before. -/
theorem firstObstacle_map_iff {members : List (Key × Value)}
    (hnamed : ∀ m ∈ members, m.1.name?.isSome) :
    FirstObstacle scope depth (.map members) error ↔ ∃ before m after,
      scope.Traverses depth members (before ++ m :: after) ∧
        FirstObstacle scope (depth + 1) m.2 error ∧ ∀ w ∈ before, ¬ w.2.HoldsObstacle := by
  constructor
  · intro h
    cases h with
    | here h =>
        rw [ownObstacle?_map_eq_none_iff.mpr hnamed] at h
        cases h
    | map _ hvisited hbefore h => exact ⟨_, _, _, hvisited, h, hbefore⟩
  · rintro ⟨before, m, after, hvisited, h, hbefore⟩
    exact .map hnamed hvisited hbefore h

/-- In a mapping with a key that has no name the mapping itself comes first. -/
theorem firstObstacle_map_iff_of_unnamed {members : List (Key × Value)}
    (hnamed : ¬ ∀ m ∈ members, m.1.name?.isSome) :
    FirstObstacle scope depth (.map members) error ↔ some .unnamed = some error := by
  have hown : (Value.map members).ownObstacle? = some .unnamed :=
    if_neg fun h => hnamed (areNamed_iff.mp h)
  rw [← hown]
  refine ⟨fun h => ?_, .here⟩
  cases h with
  | here h => exact h
  | map hall _ _ _ => exact absurd hall hnamed

/-- What is met in a value is what the first value is refused for that is refused at all. -/
theorem obstacle?_eq_some_iff :
    obstacle? scope depth v = some error ↔ FirstObstacle scope depth v error := by
  induction v using Value.inductionOn generalizing depth error with
  | scalar v hscalar =>
      have hv : v.IsSortable := .scalar hscalar
      rw [hv.obstacle?]
      refine iff_of_false (by simp) fun h => ?_
      obtain ⟨u, hu, hown⟩ := h.exists_standsIn
      rw [(hv.of_standsIn hu).ownObstacle?] at hown
      cases hown
  | list items ih =>
      rw [obstacle?, itemObstacle?_eq_some_iff, firstObstacle_list_iff]
      exact exists_congr fun before => exists_congr fun v => exists_congr fun after =>
        and_congr_right fun hitems => and_congr_left fun _ => ih v (by simp [hitems])
  | tuple items ih =>
      rw [obstacle?, itemObstacle?_eq_some_iff, firstObstacle_tuple_iff]
      exact exists_congr fun before => exists_congr fun v => exists_congr fun after =>
        and_congr_right fun hitems => and_congr_left fun _ => ih v (by simp [hitems])
  | map members ih =>
      by_cases hnamed : ∀ m ∈ members, m.1.name?.isSome
      · rw [obstacle?_map_eq_some_iff hnamed, firstObstacle_map_iff hnamed]
        exact exists_congr fun before => exists_congr fun m => exists_congr fun after =>
          and_congr_right fun hvisited => and_congr_left fun _ =>
            ih m (hvisited.perm.mem_iff.mp (by simp))
      · -- The members are not gone through.
        rw [obstacle?, if_neg fun h => hnamed (areNamed_iff.mp h),
          firstObstacle_map_iff_of_unnamed hnamed]
  | object typeName content =>
      refine ⟨fun h => .here h, fun h => ?_⟩
      cases h with
      | here h => exact h

end First

/-! ## Refused values -/

/-- A value that is not nested too deeply is refused for exactly what is met in it. -/
theorem sortFromDepth_eq_error_iff [Platform] {v : Value}
    (hnesting : v.nesting ≤ Platform.maxSortedNesting) {sortFrom : Nat} {order : List CodeText}
    {error : SortError} :
    sortFromDepth v sortFrom order = .error error ↔
      obstacle? ⟨sortFrom, order⟩ 0 v = some error := by
  rw [sortFromDepth, if_neg (Int.not_lt.mpr (Int.natCast_nonneg sortFrom)),
    if_neg (not_lt.mpr hnesting), Int.toNat_natCast]
  simp only
  split
  · next found hfound => rw [hfound, Except.error.injEq, Option.some.injEq]
  · next hnone =>
    rw [hnone]
    constructor <;> intro h <;> cases h

/-- A value that is not nested too deeply is refused, from any depth on and under any order, exactly
if an object of another type or a mapping with a key that has no name stands in it, and it is
refused for the first of these that is met; all others are sorted.  So where all keys have names it
is refused for a type exactly if an object of another type stands in it.  From a negative depth on
every value is refused for the depth. -/
theorem sortFromDepth_refuses_iff [Platform] (v : Value) (order : List CodeText) :
    (v.nesting ≤ Platform.maxSortedNesting → ∀ sortFrom : Nat,
      ((∃ error, sortFromDepth v sortFrom order = .error error) ↔ v.HoldsObstacle) ∧
      (∀ error, sortFromDepth v sortFrom order = .error error ↔
        FirstObstacle ⟨sortFrom, order⟩ 0 v error) ∧
      ((∃ r, sortFromDepth v sortFrom order = .ok r) ↔ ¬ v.HoldsObstacle) ∧
      (v.HasNames → ((∃ typeName, sortFromDepth v sortFrom order = .error (.unsupported typeName)) ↔
        v.HoldsUnsupported))) ∧
    ∀ sortFrom : Int, sortFrom < 0 →
      sortFromDepth v sortFrom order = .error (.negativeDepth sortFrom) := by
  refine ⟨fun hnesting sortFrom => ?_, fun sortFrom hneg => by rw [sortFromDepth, if_pos hneg]⟩
  have hfirst : ∀ error, sortFromDepth v sortFrom order = .error error ↔
      FirstObstacle ⟨sortFrom, order⟩ 0 v error := by
    intro error
    rw [sortFromDepth_eq_error_iff hnesting, obstacle?_eq_some_iff]
  have hrefused : (∃ error, sortFromDepth v sortFrom order = .error error) ↔ v.HoldsObstacle := by
    simp only [sortFromDepth_eq_error_iff hnesting]
    rw [← Option.isSome_iff_exists, ← not_iff_not, Option.not_isSome_iff_eq_none,
      obstacle?_eq_none_iff]
  refine ⟨hrefused, hfirst, ?_, fun hnames => ?_⟩
  · rw [Value.not_holdsObstacle_iff]
    constructor
    · rintro ⟨r, hr⟩
      exact (sortFromDepth_eq_ok_iff.mp hr).2.2.1
    · intro hv
      exact ⟨_, sortFromDepth_eq_ok_iff.mpr ⟨Int.natCast_nonneg sortFrom, hnesting, hv, rfl⟩⟩
  · constructor
    · rintro ⟨typeName, herror⟩
      exact hnames.holdsObstacle_iff.mp (hrefused.mp ⟨_, herror⟩)
    · intro hholds
      obtain ⟨error, herror⟩ := hrefused.mpr (hnames.holdsObstacle_iff.mpr hholds)
      -- The value that it is refused for is no mapping, as that would have a key without a name.
      obtain ⟨u, hu, hown⟩ := ((hfirst error).mp herror).exists_standsIn
      cases u with
      | object typeName content =>
          obtain rfl := Option.some.inj hown
          exact ⟨typeName, herror⟩
      | map members =>
          rw [ownObstacle?_map_eq_none_iff.mpr (hnames members hu)] at hown
          cases hown
      | _ => cases hown

/-- Members of which the first one holds a byte string, and the second one, whose key becomes equal
to that of the third one, holds a set in a tuple. -/
def replacedSet : Value :=
  .map [(.str (codeText "b"), .object "bytes" []),
    (.int 1, .list [.null, .tuple [.object "set" []]]), (.str (codeText "1"), .null)]

/-- The set is met first where the root is sorted by code, though it would be replaced; otherwise
the byte string is, as the root stands or by the custom order. -/
theorem sortFromDepth_replacedSet :
    replacedSet.nesting ≤ Platform.maxSortedNesting ∧ (-1 : Int) < 0 ∧
      replacedSet.HoldsUnsupported ∧
      FirstObstacle ⟨0, []⟩ 0 replacedSet (.unsupported "set") ∧
      FirstObstacle ⟨1, []⟩ 0 replacedSet (.unsupported "bytes") ∧
      FirstObstacle ⟨0, [codeText "b"]⟩ 0 replacedSet (.unsupported "bytes") ∧
      sortFromDepth replacedSet (-1) [] = .error (.negativeDepth (-1)) := by
  have hnesting : replacedSet.nesting ≤ Platform.maxSortedNesting := by decide
  have hneg : (-1 : Int) < 0 := by decide
  have hnames : replacedSet.HasNames := by
    -- The only mapping is the value itself; below it there are a list, a tuple and objects.
    intro members h
    cases h with
    | self => decide
    | map hm h =>
        simp only [List.mem_cons, List.not_mem_nil, or_false] at hm
        rcases hm with rfl | rfl | rfl
        · cases h
        · cases h with
          | list hv h =>
              simp only [List.mem_cons, List.not_mem_nil, or_false] at hv
              rcases hv with rfl | rfl
              · cases h
              · cases h with
                | tuple hv h =>
                    obtain rfl := List.mem_singleton.mp hv
                    cases h
        · cases h
  have hset : sortFromDepth replacedSet 0 [] = .error (.unsupported "set") := by cbv
  have hbytes : sortFromDepth replacedSet 1 [] = .error (.unsupported "bytes") := by cbv
  have hlisted : sortFromDepth replacedSet 0 [codeText "b"] = .error (.unsupported "bytes") := by
    cbv
  obtain ⟨hrefused, hnegative⟩ := sortFromDepth_refuses_iff replacedSet []
  have hcustom := (sortFromDepth_refuses_iff replacedSet [codeText "b"]).1 hnesting 0
  exact ⟨hnesting, hneg, ((hrefused hnesting 0).2.2.2 hnames).mp ⟨_, hset⟩,
    ((hrefused hnesting 0).2.1 _).mp hset, ((hrefused hnesting 1).2.1 _).mp hbytes,
    (hcustom.2.1 _).mp hlisted, hnegative _ hneg⟩

/-- An integer has no name exactly if it has too many digits. -/
theorem name?_int_eq_none_iff {n : Int} :
    (Key.int n).name? = none ↔ 10 ^ maxIntegerDigits ≤ n.natAbs := by
  rw [← not_lt, ← isWritable_iff]
  show (if isWritable n then some _ else none) = none ↔ _
  cases isWritable n <;> simp

/-- A mapping with a set under an integer of too many digits. -/
def unnamedKey : Value :=
  .map [(.int (10 ^ maxIntegerDigits : Nat), .object "set" [])]

/-- A set stands in the mapping, which is refused for its key all the same. -/
theorem sortFromDepth_unnamedKey :
    unnamedKey.nesting ≤ Platform.maxSortedNesting ∧ unnamedKey.HoldsUnsupported ∧
      sortFromDepth unnamedKey 0 [] = .error .unnamed ∧
      ¬ ∃ typeName, sortFromDepth unnamedKey 0 [] = .error (.unsupported typeName) := by
  have hname : (Key.int (10 ^ maxIntegerDigits : Nat)).name? = none :=
    name?_int_eq_none_iff.mpr (Int.natAbs_natCast _).ge
  have hown : unnamedKey.ownObstacle? = some .unnamed := by
    rw [unnamedKey, Value.ownObstacle?, areNamed, List.all_cons, hname]
    rfl
  have hnesting : unnamedKey.nesting ≤ Platform.maxSortedNesting := by decide
  have herror : sortFromDepth unnamedKey 0 [] = .error .unnamed :=
    (sortFromDepth_eq_error_iff hnesting).mpr (obstacle?_eq_some_iff.mpr (.here hown))
  refine ⟨hnesting, ⟨"set", [], .map List.mem_cons_self .self⟩, herror, ?_⟩
  rintro ⟨typeName, h⟩
  rw [herror] at h
  cases h

end KeyOrder
