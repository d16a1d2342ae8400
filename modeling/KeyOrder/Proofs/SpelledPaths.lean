import KeyOrder.Proofs.SoundTrees
/-!
# Texts of paths

A text of a path spells a row of names, with or without a slash at its end.  Such a text is
read as these names, and joining two of them spells one row after the other.
-/

namespace KeyOrder

/-! ## Texts of rows of names -/

/-- A name in a path: it is not empty and has no slash, and it is no dot name. -/
structure IsPathName (name : CodeText) : Prop where
  nonempty : name ≠ []
  slash : slash ∉ name
  current : name ≠ currentName
  parent : name ≠ parentName

/-- Names of files are names in paths. -/
theorem IsEntryName.isPathName {name : CodeText} (h : IsEntryName name) : IsPathName name :=
  ⟨h.nonempty, h.slash, h.current, h.parent⟩

/-- A text spells a row of names, maybe with a slash after the last one. -/
inductive Spells : CodeText → List CodeText → Prop
  | plain (names : List CodeText) : Spells (joined names) names
  | ended {names : List CodeText} (hne : names ≠ []) : Spells (joined names ++ [slash]) names

/-- Only no names have an empty path. -/
theorem joined_ne_nil {names : List CodeText} (hne : names ≠ [])
    (hnames : ∀ name ∈ names, IsPathName name) : joined names ≠ [] := by
  obtain ⟨name, names, rfl⟩ := List.exists_cons_of_ne_nil hne
  have hname := (hnames name List.mem_cons_self).nonempty
  by_cases hnil : names = []
  · subst hnil
    rwa [joined_singleton]
  · rw [joined_cons name hnil]
    exact List.append_ne_nil_of_left_ne_nil hname _

/-- The path of names that are not empty and have no slashes does not start with one. -/
theorem head?_joined_ne_slash {names : List CodeText}
    (hnames : ∀ name ∈ names, name ≠ [] ∧ slash ∉ name) : (joined names).head? ≠ some slash := by
  cases names with
  | nil => exact Option.some_ne_none slash |>.symm
  | cons name names =>
      obtain ⟨hne, hslash⟩ := hnames name List.mem_cons_self
      obtain ⟨c, rest, rfl⟩ := List.exists_cons_of_ne_nil hne
      have hhead : (joined ((c :: rest) :: names)).head? = some c := by
        by_cases hnil : names = []
        · subst hnil
          rw [joined_singleton]
          rfl
        · rw [joined_cons _ hnil]
          rfl
      rw [hhead]
      exact fun h => hslash (Option.some.inj h ▸ List.mem_cons_self)

/-- The path of names does not start with a slash. -/
theorem head?_joined_ne {names : List CodeText} (hnames : ∀ name ∈ names, IsPathName name) :
    (joined names).head? ≠ some slash :=
  head?_joined_ne_slash fun name hname => ⟨(hnames name hname).nonempty, (hnames name hname).slash⟩

/-- The path of names does not end with a slash. -/
theorem getLast?_joined_ne {names : List CodeText} (hnames : ∀ name ∈ names, IsPathName name) :
    (joined names).getLast? ≠ some slash := by
  induction names with
  | nil => exact Option.some_ne_none slash |>.symm
  | cons name names ih =>
      obtain ⟨hname, hnames⟩ := List.forall_mem_cons.mp hnames
      by_cases hnil : names = []
      · subst hnil
        rw [joined_singleton]
        exact fun h => hname.slash (List.mem_of_getLast? h)
      · rw [joined_cons name hnil, ← List.singleton_append, ← List.append_assoc,
          List.getLast?_append_of_ne_nil _ (joined_ne_nil hnil hnames)]
        exact ih hnames

/-- A text that does not start with a slash has no root. -/
theorem leadingRoot_of_head? {text : CodeText} (h : text.head? ≠ some slash) :
    leadingRoot text = [] := by
  cases text with
  | nil => rfl
  | cons c rest =>
      have hc : ¬ (c == slash) = true := fun heq => h (congrArg some (beq_iff_eq.mp heq))
      rw [leadingRoot, List.takeWhile_cons_of_neg (p := (· == slash)) hc]
      rfl

/-- The path of names is split into them in front of a slash. -/
theorem splitSlashes_joined_append {names : List CodeText} (hne : names ≠ [])
    (hnames : ∀ name ∈ names, IsPathName name) (rest : CodeText) :
    splitSlashes (joined names ++ slash :: rest) = names ++ splitSlashes rest := by
  induction names with
  | nil => exact absurd rfl hne
  | cons name names ih =>
      obtain ⟨hname, hnames⟩ := List.forall_mem_cons.mp hnames
      by_cases hnil : names = []
      · subst hnil
        rw [joined_singleton, splitSlashes_append hname.slash]
        rfl
      · rw [joined_cons name hnil, List.append_assoc, List.cons_append,
          splitSlashes_append hname.slash, ih hnil hnames]
        rfl

section Texts

variable {names : List CodeText} (hnames : ∀ name ∈ names, IsPathName name)

include hnames

/-- Names in paths are not empty, so none of them is left out. -/
theorem filter_ne_nil : names.filter (· != []) = names :=
  List.filter_eq_self.mpr fun name hname => by simpa using (hnames name hname).nonempty

/-- The path of names stands for them. -/
theorem literal_joined : Path.literal (joined names) = { root := [], names := names } := by
  rw [Path.literal, leadingRoot_of_head? (head?_joined_ne hnames),
    if_neg (getLast?_joined_ne hnames), List.append_nil]
  by_cases hne : names = []
  · subst hne
    rfl
  · rw [splitSlashes_joined hne fun name hname => (hnames name hname).slash, filter_ne_nil hnames]

/-- With a slash at its end the path of names stands for what they lead to as a directory. -/
theorem literal_joined_slash (hne : names ≠ []) :
    Path.literal (joined names ++ [slash]) = { root := [], names := names ++ [currentName] } := by
  have hhead : (joined names ++ [slash]).head? ≠ some slash := by
    rw [List.head?_append_of_ne_nil _ (joined_ne_nil hne hnames)]
    exact head?_joined_ne hnames
  rw [Path.literal, leadingRoot_of_head? hhead, splitSlashes_joined_append hne hnames,
    List.filter_append, filter_ne_nil hnames, List.getLast?_concat, if_pos rfl]
  exact congrArg (fun row => Path.mk [] (row ++ [currentName])) (List.append_nil names)

/-- A text that spells names is normalised to them. -/
theorem ofText_of_spells {text : CodeText} (h : Spells text names) :
    Path.ofText text = { root := [], names := names } := by
  have hkept : names.filter (fun name => name != [] && name != currentName) = names :=
    List.filter_eq_self.mpr fun name hname => by
      simpa using ⟨(hnames name hname).nonempty, (hnames name hname).current⟩
  cases h with
  | plain =>
      rw [Path.ofText, leadingRoot_of_head? (head?_joined_ne hnames)]
      by_cases hne : names = []
      · subst hne
        rfl
      · rw [splitSlashes_joined hne fun name hname => (hnames name hname).slash, hkept]
  | ended hne =>
      have hhead : (joined names ++ [slash]).head? ≠ some slash := by
        rw [List.head?_append_of_ne_nil _ (joined_ne_nil hne hnames)]
        exact head?_joined_ne hnames
      rw [Path.ofText, leadingRoot_of_head? hhead, splitSlashes_joined_append hne hnames,
        List.filter_append, hkept]
      exact congrArg (Path.mk []) (List.append_nil names)

/-- Joining nothing to a text leaves its names. -/
theorem Spells.joinPaths_nil {text : CodeText} (h : Spells text names) :
    Spells (joinPaths text []) names := by
  unfold joinPaths
  rw [List.head?_nil, if_neg (Option.some_ne_none slash).symm]
  cases h with
  | plain =>
      by_cases hne : names = []
      · subst hne
        exact .plain []
      · have hkept : ¬ ((joined names).isEmpty || (joined names).getLast? = some slash) := by
          simpa using ⟨joined_ne_nil hne hnames, getLast?_joined_ne hnames⟩
        rw [if_neg hkept]
        exact .ended hne
  | ended hne =>
      rw [List.getLast?_concat, if_pos (by simp), List.append_nil]
      exact .ended hne

/-- Joining the path of names to a text puts them behind its names. -/
theorem Spells.joinPaths_joined {text : CodeText} {before : List CodeText} (h : Spells text before)
    (hbefore : ∀ name ∈ before, IsPathName name) (hne : names ≠ []) :
    joinPaths text (joined names) = joined (before ++ names) := by
  unfold joinPaths
  rw [if_neg (head?_joined_ne hnames)]
  cases h with
  | plain =>
      by_cases hnil : before = []
      · subst hnil
        rfl
      · have hkept : ¬ ((joined before).isEmpty || (joined before).getLast? = some slash) := by
          simpa using ⟨joined_ne_nil hnil hbefore, getLast?_joined_ne hbefore⟩
        rw [if_neg hkept, joined_append hnil hne]
  | ended hnil =>
      rw [List.getLast?_concat, if_pos (by simp), joined_append hnil hne, List.append_assoc,
        List.singleton_append]

end Texts

/-- More text behind a text is joined behind it. -/
theorem joinPaths_append {directory text : CodeText} (hne : text ≠ [])
    (hhead : text.head? ≠ some slash) (more : CodeText) :
    joinPaths directory (text ++ more) = joinPaths directory text ++ more := by
  unfold joinPaths
  rw [List.head?_append_of_ne_nil _ hne, if_neg hhead, if_neg hhead]
  split
  · exact (List.append_assoc ..).symm
  · rw [List.append_assoc, List.cons_append]

/-- Files can have exactly the paths with bytes and without null characters. -/
theorem pathFault?_eq_none_iff {path : CodeText} : pathFault? path = none ↔
    (pathBytes? path).isSome = true ∧ .scalar '\x00' ∉ path := by
  have hencode : pathEncodeFault? path = none ↔ (pathBytes? path).isSome = true := by
    have hhalf : ∀ c : CodePoint, (!c.isHalf || c.pathBytes?.isSome) = c.pathBytes?.isSome := by
      intro c
      cases c <;> rfl
    rw [pathEncodeFault?, Utf8.encodeFault?, isSome_pathBytes?_iff, ← List.dropWhile_eq_nil_iff,
      funext hhalf]
    cases path.dropWhile fun c => c.pathBytes?.isSome <;> simp
  rw [← hencode, pathFault?]
  cases pathEncodeFault? path with
  | some fault => exact iff_of_false (Option.some_ne_none _) fun h => Option.some_ne_none _ h.1
  | none => simp

end KeyOrder
