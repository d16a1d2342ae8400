import KeyOrder.Proofs.Rows
import KeyOrder.Proofs.TreePaths
/-!
# Walks in directory trees

A pattern is gone through in a tree from its last name back and leads to texts of paths.  In a
sound tree these are texts of what stands under names that are dealt out to the names of the
pattern, and everything that a pattern leads to by its names is among them.
-/

namespace KeyOrder

open Glob (IsSegment Takes)

/-! ## Cutting texts of patterns -/

/-- Names of patterns are names in paths. -/
theorem Glob.IsSegment.isPathName {segment : CodeText} (h : IsSegment segment) :
    IsPathName segment :=
  ⟨h.nonempty, h.slash, h.current, h.parent⟩

/-- A text without slashes has no directory part. -/
theorem splitLast_of_not_mem {name : CodeText} (hname : slash ∉ name) :
    splitLast name = ([], name) := by
  have htake : name.reverse.takeWhile (· != slash) = name.reverse :=
    List.takeWhile_eq_self_iff.mpr fun c hc => bne_iff_ne.mpr fun heq =>
      hname (List.mem_reverse.mp (heq ▸ hc))
  rw [splitLast, htake, List.reverse_reverse, Nat.sub_self, List.take_zero]
  rfl

/-- A path is cut before its last name. -/
theorem splitLast_joined_append {names : List CodeText} (hne : names ≠ [])
    (hnames : ∀ name ∈ names, IsPathName name) {name : CodeText} (hname : slash ∉ name) :
    splitLast (joined names ++ slash :: name) = (joined names, name) := by
  have htake : (joined names ++ slash :: name).reverse.takeWhile (· != slash) = name.reverse := by
    rw [List.reverse_append, List.reverse_cons, List.append_assoc, List.takeWhile_append_of_pos]
    · simp
    · exact fun c hc => bne_iff_ne.mpr fun heq => hname (List.mem_reverse.mp (heq ▸ hc))
  have hhead : (joined names ++ slash :: name).take
      ((joined names ++ slash :: name).length - name.length) = joined names ++ [slash] := by
    rw [← List.singleton_append, ← List.append_assoc, List.length_append, Nat.add_sub_cancel,
      List.take_left]
  have hbare : dropEndSlashes (joined names ++ [slash]) = joined names := by
    obtain ⟨start, last, hlast⟩ := List.eq_nil_or_concat' (joined names) |>.resolve_left
      (joined_ne_nil hne hnames)
    have hkept : ¬ (last == slash) = true := fun heq => getLast?_joined_ne hnames (by
      rw [hlast, List.getLast?_concat, beq_iff_eq.mp heq])
    rw [dropEndSlashes, hlast, List.reverse_append, List.reverse_append, List.reverse_singleton,
      List.singleton_append,
      List.dropWhile_cons_of_pos (p := (· == slash)) (beq_self_eq_true slash),
      List.reverse_singleton, List.singleton_append,
      List.dropWhile_cons_of_neg (p := (· == slash)) hkept, List.reverse_cons, List.reverse_reverse]
  have hfull : (joined names).isEmpty = false := by
    simpa using joined_ne_nil hne hnames
  rw [splitLast, htake, List.reverse_reverse, hhead, hbare, hfull]
  rfl

/-- The path of names is cut before the last one. -/
theorem splitLast_joined {names : List CodeText} {name : CodeText}
    (hnames : ∀ other ∈ names ++ [name], IsPathName other) :
    splitLast (joined (names ++ [name])) = (joined names, name) := by
  obtain ⟨hbefore, hlast⟩ := List.forall_mem_append.mp hnames
  have hname := (hlast name List.mem_cons_self).slash
  by_cases hnil : names = []
  · subst hnil
    rw [List.nil_append, joined_singleton, splitLast_of_not_mem hname]
    rfl
  · rw [joined_append hnil (List.cons_ne_nil _ _), joined_singleton,
      splitLast_joined_append hnil hbefore hname]

/-- Nothing stands in front of a path joined to an empty text. -/
theorem joinPaths_of_nil (text : CodeText) : joinPaths [] text = text := by
  unfold joinPaths
  split <;> rfl

namespace Tree

variable {tree : Tree}

/-- A row of names without special characters leads to its path, if something is there. -/
theorem walk_of_plain [Platform] {segments : List CodeText} {segment : CodeText}
    (hsegments : ∀ s ∈ segments ++ [segment], IsSegment s)
    (hplain : hasMagic (joined (segments ++ [segment])) = false) (onlyDirectories : Bool) :
    tree.walk (joined (segments ++ [segment])) onlyDirectories
      = if (tree.lookup? (joined (segments ++ [segment]))).isSome
        then [joined (segments ++ [segment])] else [] := by
  have hnames := fun name hname => (hsegments name hname).isPathName
  have hne := (hnames segment (by simp)).nonempty
  rw [walk, splitLast_joined hnames, hplain]
  dsimp only
  rw [if_pos Bool.not_false, if_neg (by simpa using hne)]

/-- A row of names with special characters leads to what its last name selects in the directories
that the others lead to. -/
theorem walk_of_magic [Platform] {segments : List CodeText} {segment : CodeText}
    (hsegments : ∀ s ∈ segments ++ [segment], IsSegment s)
    (hmagic : hasMagic (joined (segments ++ [segment])) = true) (onlyDirectories : Bool) :
    tree.walk (joined (segments ++ [segment])) onlyDirectories
      = (if hasMagic (joined segments) then tree.walk (joined segments) true
          else [joined segments]).flatMap fun directory =>
        (tree.lastIn directory segment onlyDirectories).map (joinPaths directory) := by
  have hnames := fun name hname => (hsegments name hname).isPathName
  rw [walk, splitLast_joined hnames, hmagic]
  dsimp only
  rw [if_neg (by decide)]
  by_cases hnil : segments = []
  · subst hnil
    have hsame : joinPaths [] = id := funext joinPaths_of_nil
    have hempty : ([] : CodeText).isEmpty = true := rfl
    have hplain : ¬ hasMagic [] = true := Bool.false_ne_true
    rw [joined_nil, if_pos hempty, if_neg hplain, List.flatMap_singleton, hsame, List.map_id]
  · rw [if_neg (by simpa using joined_ne_nil hnil (List.forall_mem_append.mp hnames).1)]
    rfl

/-! ## The last name of a pattern -/

section LastName

variable (hsound : tree.IsSound) {directory segment : CodeText} {before : List CodeText}
  {onlyDirectories : Bool}

include hsound

/-- What is found in a sound tree is sound. -/
theorem IsSound.isSound_of_find? {names : List CodeText} {node : Node}
    (h : tree.top.find? (tree.working.names ++ names) = some node) : node.IsSound := by
  obtain ⟨names', hhas, -⟩ := hsound.exists_has h
  exact Node.Holds.isSound hhas hsound.top

/-- What a node holds that is found is found below it. -/
theorem IsSound.find?_of_holds {names : List CodeText} {node inner : Node}
    (h : tree.top.find? (tree.working.names ++ before) = some node)
    (hholds : node.Holds names inner) :
    tree.top.find? (tree.working.names ++ (before ++ names)) = some inner := by
  rw [← List.append_assoc, Node.find?_append, h]
  exact hholds.find?_eq (hsound.isSound_of_find? h)

omit hsound in
/-- A name joined to a text is the last one of its names. -/
theorem joinPaths_of_spells {text name : CodeText} (htext : Spells text before)
    (hbefore : ∀ other ∈ before, IsPathName other) (hname : IsPathName name) :
    joinPaths text name = joined (before ++ [name]) := by
  have hjoin := Spells.joinPaths_joined (List.forall_mem_singleton.mpr hname) htext hbefore
    (List.cons_ne_nil _ _)
  rwa [joined_singleton] at hjoin

omit hsound in
/-- A name that may be joined to a text is the last one of its names. -/
theorem joinIfAny_of_spells {text name : CodeText} (htext : Spells text before)
    (hbefore : ∀ other ∈ before, IsPathName other) (hname : IsPathName name) :
    joinIfAny text name = joined (before ++ [name]) := by
  rw [← joinPaths_of_spells htext hbefore hname, joinIfAny]
  split
  · next hempty => rw [List.isEmpty_iff.mp hempty, joinPaths_of_nil]
  · exact if_neg (by simpa using hname.nonempty)

/-- A text that the last name of a pattern selects in a directory spells a part that the name takes:
nothing for two stars, where directories are tested for in a directory alone, or something that is
there; where only directories are asked for it is one, unless the name is plain. -/
structure Selected [Platform] (tree : Tree) (onlyDirectories : Bool)
    (segment directory text : CodeText) (before part : List CodeText) : Prop where
  takes : Takes segment part
  path : ∀ name ∈ part, IsPathName name
  spells : Spells (joinPaths directory text) (before ++ part)
  place : segment = allName ∧ part = [] ∧
      (Platform.testsDirectories = true → tree.hasDirectory directory = true) ∨
    part ≠ [] ∧ ∃ node,
    tree.top.find? (tree.working.names ++ (before ++ part)) = some node ∧
      (hasMagic segment = true → (onlyDirectories && node.isFile) = false)

section Selected

variable {text : CodeText} (hdirectory : Spells directory before)
  (hbefore : ∀ name ∈ before, IsPathName name)

include hdirectory hbefore

/-- Two stars select nothing or what stands below. -/
theorem IsSound.selected_of_mem_allIn [Platform] (h : text ∈ tree.allIn directory onlyDirectories) :
    ∃ part, Selected tree onlyDirectories allName directory text before part := by
  rcases List.mem_append.mp h with h | h
  · split at h
    · exact absurd h List.not_mem_nil
    · next htested =>
      obtain rfl := List.mem_singleton.mp h
      refine ⟨[], Or.inl rfl, List.forall_mem_nil _, ?_, Or.inl ⟨rfl, rfl, fun htests => ?_⟩⟩
      · rw [List.append_nil]
        exact hdirectory.joinPaths_nil hbefore
      · simpa [htests] using htested
  · split at h
    · next node hnode =>
      have hfind := hsound.find?_of_lookup? hdirectory hbefore hnode
      have hinner := hsound.isSound_of_find? hfind
      obtain ⟨part, inner, hne, hholds, hkind, rfl⟩ := hinner.mem_descendants_iff.mp h
      have hpart := fun name hname => (hholds.isEntryName hinner name hname).isPathName
      refine ⟨part, Or.inl rfl, hpart, ?_, Or.inr ⟨hne, inner,
        hsound.find?_of_holds hfind hholds, fun _ => hkind⟩⟩
      rw [Spells.joinPaths_joined hpart hdirectory hbefore hne]
      exact .plain _
    · exact absurd h List.not_mem_nil

/-- A name with special characters selects the entries whose names it matches. -/
theorem IsSound.selected_of_mem_namesIn [Platform]
    (h : text ∈ tree.namesIn directory segment onlyDirectories) :
    ∃ part, Selected tree onlyDirectories segment directory text before part := by
  rw [namesIn] at h
  split at h
  · next entries hentries =>
    obtain ⟨entry, hentry, rfl⟩ := List.mem_map.mp h
    obtain ⟨hmem, hkept⟩ := List.mem_filter.mp hentry
    obtain ⟨hkind, hmatches⟩ := Bool.and_eq_true_iff.mp hkept
    have hfind := hsound.find?_of_lookup? hdirectory hbefore hentries
    have hholds : (Node.directory entries).Holds [entry.1] entry.2 := .under hmem (.here _)
    have hpart := fun name hname =>
      (hholds.isEntryName (hsound.isSound_of_find? hfind) name hname).isPathName
    refine ⟨[entry.1], Or.inr ⟨entry.1, rfl, hmatches⟩, hpart, ?_,
      Or.inr ⟨List.cons_ne_nil _ _, entry.2, hsound.find?_of_holds hfind hholds,
        fun _ => (Bool.not_eq_true' _).mp hkind⟩⟩
    rw [joinPaths_of_spells hdirectory hbefore (hpart entry.1 List.mem_cons_self)]
    exact .plain _
  · exact absurd h List.not_mem_nil

/-- A plain name selects itself. -/
theorem IsSound.selected_of_mem_plainIn [Platform] (hsegment : IsSegment segment)
    (hplain : ¬ hasMagic segment = true) (h : text ∈ tree.plainIn directory segment) :
    ∃ part, Selected tree onlyDirectories segment directory text before part := by
  have hname := hsegment.isPathName
  have hrow := List.forall_mem_append.mpr ⟨hbefore, List.forall_mem_singleton.mpr hname⟩
  rw [plainIn, if_neg (by simpa using hsegment.nonempty),
    joinIfAny_of_spells hdirectory hbefore hname] at h
  split at h
  · next hthere =>
    obtain rfl := List.mem_singleton.mp h
    obtain ⟨node, hnode⟩ := Option.isSome_iff_exists.mp hthere
    refine ⟨[text], hsegment.takes_self, List.forall_mem_singleton.mpr hname, ?_,
      Or.inr ⟨List.cons_ne_nil _ _, node, hsound.find?_of_lookup? (.plain _) hrow hnode,
        fun hmagic => absurd hmagic hplain⟩⟩
    rw [joinPaths_of_spells hdirectory hbefore hname]
    exact .plain _
  · exact absurd h List.not_mem_nil

/-- What the last name of a pattern selects in a directory spells a part that it takes. -/
theorem IsSound.selected_of_mem_lastIn [Platform] (hsegment : IsSegment segment)
    (h : text ∈ tree.lastIn directory segment onlyDirectories) :
    ∃ part, Selected tree onlyDirectories segment directory text before part := by
  rw [lastIn] at h
  split at h
  · next hall =>
    subst hall
    exact hsound.selected_of_mem_allIn hdirectory hbefore h
  · split at h
    · exact hsound.selected_of_mem_namesIn hdirectory hbefore h
    · next hplain => exact hsound.selected_of_mem_plainIn hdirectory hbefore hsegment hplain h

end Selected

/-- A text that leads to a directory spells names under which one is found. -/
theorem IsSound.exists_of_hasDirectory (hdirectory : Spells directory before)
    (hbefore : ∀ name ∈ before, IsPathName name) (h : tree.hasDirectory directory = true) :
    ∃ entries, tree.top.find? (tree.working.names ++ before) = some (.directory entries) := by
  rw [hasDirectory] at h
  split at h
  · next entries hentries => exact ⟨entries, hsound.find?_of_lookup? hdirectory hbefore hentries⟩
  · cases h

omit hsound in
/-- What stands below other names stands in a directory. -/
theorem Has.exists_directory {part : List CodeText} {node : Node}
    (h : tree.Has (before ++ part) node) (hne : part ≠ []) :
    ∃ entries, tree.Has before (.directory entries) ∧ (Node.directory entries).Holds part node ∧
      ∃ entry, entry ∈ entries := by
  rw [Has, ← List.append_assoc] at h
  obtain ⟨name, rest, rfl⟩ := List.exists_cons_of_ne_nil hne
  obtain ⟨start, hstart, hholds⟩ := Node.Holds.exists_of_append h
  obtain ⟨entries, next, rfl, hentry, -⟩ := hholds.exists_entry
  exact ⟨entries, hstart, hholds, _, hentry⟩

/-- A part that the last name of a pattern takes is selected where it stands; where only
directories are asked for it has to be one, unless the name is plain. -/
theorem Has.exists_mem_lastIn [Platform] {part : List CodeText} {node : Node}
    (h : tree.Has (before ++ part) node) (hdirectory : Spells directory before)
    (htakes : Takes segment part) (hne : part ≠ [])
    (hkind : hasMagic segment = true → (onlyDirectories && node.isFile) = false) :
    ∃ text ∈ tree.lastIn directory segment onlyDirectories,
      Spells (joinPaths directory text) (before ++ part) := by
  have hnames := fun name hname => (h.isEntryName hsound name hname).isPathName
  obtain ⟨hbefore, hpart⟩ := List.forall_mem_append.mp hnames
  obtain ⟨entries, hstart, hholds, entry, hentry⟩ := h.exists_directory hne
  have hlookup := hsound.lookup?_of_spells hdirectory hstart hentry
  rw [lastIn]
  by_cases hall : segment = allName
  · subst hall
    refine ⟨joined part, ?_, ?_⟩
    · rw [if_pos rfl, allIn, hlookup]
      have hinner := hsound.isSound_of_find? (hstart.find?_eq hsound)
      exact List.mem_append_right _ (hinner.mem_descendants_iff.mpr
        ⟨part, node, hne, hholds, hkind rfl, rfl⟩)
    · rw [Spells.joinPaths_joined hpart hdirectory hbefore hne]
      exact .plain _
  · obtain ⟨name, rfl, hmatches⟩ := htakes.resolve_left hall
    have hname := hpart name List.mem_cons_self
    refine ⟨name, ?_, ?_⟩
    · rw [if_neg hall]
      split
      · next hmagic =>
        cases hholds with
        | under hmem hhere =>
            cases hhere
            rw [namesIn, hlookup]
            refine List.mem_map.mpr ⟨(name, node), List.mem_filter.mpr ⟨hmem, ?_⟩, rfl⟩
            rw [hmatches, hkind hmagic]
            rfl
      · next hplain =>
        obtain rfl := (Glob.matchesName_plain_iff (by simpa using hplain)).mp hmatches
        have hthere := hsound.lookup?_joined (List.append_ne_nil_of_right_ne_nil _ hne) hnames
          (h.find?_eq hsound)
        rw [plainIn, if_neg (by simpa using hname.nonempty),
          joinIfAny_of_spells hdirectory hbefore hname, hthere]
        exact List.mem_singleton_self _
    · rw [joinPaths_of_spells hdirectory hbefore hname]
      exact .plain _

/-- Two stars that take nothing select what is there; where directories are tested for it has to be
a directory with something in it. -/
theorem Has.exists_mem_lastIn_allName [Platform] {node : Node} (h : tree.Has before node)
    (hdirectory : Spells directory before) (hkind : Platform.testsDirectories = true →
      ∃ entries, node = .directory entries ∧ ∃ entry, entry ∈ entries) :
    ∃ text ∈ tree.lastIn directory allName onlyDirectories,
      Spells (joinPaths directory text) before := by
  refine ⟨[], ?_, hdirectory.joinPaths_nil fun name hname =>
    (h.isEntryName hsound name hname).isPathName⟩
  rw [lastIn, if_pos rfl]
  refine List.mem_append_left _ ?_
  cases htests : Platform.testsDirectories with
  | false => exact List.mem_singleton_self _
  | true =>
      obtain ⟨entries, rfl, entry, hentry⟩ := hkind htests
      rw [hasDirectory, hsound.lookup?_of_spells hdirectory h hentry]
      exact List.mem_singleton_self _

end LastName

/-! ## All names of a pattern -/

/-- Names that a pattern reaches in a tree: they are dealt out to its names, and so that it leads
to a file where one stands; something stands there unless the names are plain names that the
pattern starts with. -/
structure Reaches [Platform] (tree : Tree) (onlyDirectories : Bool)
    (segments names : List CodeText) : Prop where
  path : ∀ name ∈ names, IsPathName name
  row : Row segments names
  file : ∀ bytes, tree.top.find? (tree.working.names ++ names) = some (.file bytes) →
    Leads onlyDirectories segments names
  found : (tree.top.find? (tree.working.names ++ names)).isSome = true ∨
    names <+: segments ∧ ∀ name ∈ names, hasMagic name = false

section Walk

variable (hsound : tree.IsSound) {segments names : List CodeText} {onlyDirectories : Bool}

include hsound

/-- Plain names reach themselves. -/
theorem IsSound.reaches_self [Platform] (hsegments : ∀ segment ∈ segments, IsSegment segment)
    (hplain : ∀ segment ∈ segments, hasMagic segment = false) :
    Reaches tree onlyDirectories segments segments where
  path segment hsegment := (hsegments segment hsegment).isPathName
  row := row_self hsegments
  file bytes hfile := by
    rcases List.eq_nil_or_concat' segments with rfl | ⟨before, last, rfl⟩
    · obtain ⟨entries, hworking⟩ := hsound.working
      rw [hworking.find?_eq hsound] at hfile
      cases hfile
    · obtain ⟨hbefore, hlast⟩ := List.forall_mem_append.mp hsegments
      exact .part (row_self hbefore) (hlast last List.mem_cons_self).takes_self
        (List.cons_ne_nil _ _) fun _ => hplain last (by simp)
  found := Or.inr ⟨List.prefix_rfl, hplain⟩

/-- What is reached is reached further by what the last name selects. -/
theorem IsSound.exists_reaches_of_mem_lastIn [Platform] {directory text segment : CodeText}
    (h : Reaches tree true segments names) (hdirectory : Spells directory names)
    (hsegment : IsSegment segment) (htext : text ∈ tree.lastIn directory segment onlyDirectories) :
    ∃ names', Spells (joinPaths directory text) names' ∧
      Reaches tree onlyDirectories (segments ++ [segment]) names' := by
  obtain ⟨part, htakes, hpart, hspells, hkind⟩ :=
    hsound.selected_of_mem_lastIn hdirectory h.path hsegment htext
  refine ⟨names ++ part, hspells, List.forall_mem_append.mpr ⟨h.path, hpart⟩,
    row_concat_iff.mpr ⟨names, part, h.row, htakes, rfl⟩, fun bytes hfile => ?_, ?_⟩
  · rcases hkind with ⟨rfl, rfl, htested⟩ | ⟨hne, node, hnode, hkind⟩
    · rw [List.append_nil] at hfile ⊢
      refine .nothing (Bool.eq_false_iff.mpr fun htests => ?_) (h.file bytes hfile)
      -- What is tested for is a directory and no file.
      obtain ⟨entries, hentries⟩ := hsound.exists_of_hasDirectory hdirectory h.path (htested htests)
      rw [hentries] at hfile
      cases hfile
    · refine .part h.row htakes hne fun honly => Bool.eq_false_iff.mpr fun hmagic => ?_
      obtain rfl := Option.some.inj (hnode.symm.trans hfile)
      rw [honly] at hkind
      exact Bool.noConfusion (hkind hmagic)
  · rcases hkind with ⟨rfl, rfl, -⟩ | ⟨-, node, hnode, -⟩
    · rw [List.append_nil]
      exact h.found.imp_right fun hstart => ⟨hstart.1.trans (List.prefix_append _ _), hstart.2⟩
    · exact Or.inl (hnode ▸ rfl)

/-- A pattern leads to texts that spell names which it reaches. -/
theorem IsSound.exists_reaches_of_mem_walk [Platform] {text : CodeText} (hne : segments ≠ [])
    (hsegments : ∀ segment ∈ segments, IsSegment segment)
    (h : text ∈ tree.walk (joined segments) onlyDirectories) :
    ∃ names, Spells text names ∧ Reaches tree onlyDirectories segments names := by
  -- The search looks for the directories of the pattern without its last name first.
  induction segments using List.reverseRecOn generalizing text onlyDirectories with
  | nil => exact absurd rfl hne
  | append_singleton segments segment ih =>
      obtain ⟨hbefore, hsegment⟩ := List.forall_mem_append.mp hsegments
      have hlast := hsegment segment List.mem_cons_self
      cases hmagic : hasMagic (joined (segments ++ [segment])) with
      | false =>
          rw [walk_of_plain hsegments hmagic] at h
          split at h
          · obtain rfl := List.mem_singleton.mp h
            exact ⟨_, .plain _,
              hsound.reaches_self hsegments (hasMagic_joined_eq_false_iff.mp hmagic)⟩
          · exact absurd h List.not_mem_nil
      | true =>
          rw [walk_of_magic hsegments hmagic] at h
          obtain ⟨directory, hdirectory, h⟩ := List.mem_flatMap.mp h
          obtain ⟨last, hmem, rfl⟩ := List.mem_map.mp h
          obtain ⟨names, hspells, hreaches⟩ : ∃ names, Spells directory names ∧
              Reaches tree true segments names := by
            split at hdirectory
            · next hmore =>
              have hnil : segments ≠ [] := by
                rintro rfl
                exact Bool.false_ne_true hmore
              exact ih hnil hbefore hdirectory
            · next hnone =>
              obtain rfl := List.mem_singleton.mp hdirectory
              exact ⟨segments, .plain _, hsound.reaches_self hbefore
                (hasMagic_joined_eq_false_iff.mp (Bool.eq_false_iff.mpr hnone))⟩
          exact hsound.exists_reaches_of_mem_lastIn hreaches hspells hlast hmem

/-- A pattern leads to directories with something in them under names that are dealt out to it, and
to a file if it leads to one under these names. -/
theorem Has.exists_mem_walk [Platform] {node : Node} (h : tree.Has names node)
    (hne : segments ≠ []) (hsegments : ∀ segment ∈ segments, IsSegment segment)
    (hrow : Row segments names)
    (hfull : ∀ entries, node = .directory entries → ∃ entry, entry ∈ entries)
    (hleads : node.isFile = true → Leads onlyDirectories segments names) :
    ∃ text ∈ tree.walk (joined segments) onlyDirectories, Spells text names := by
  induction segments using List.reverseRecOn generalizing names node onlyDirectories with
  | nil => exact absurd rfl hne
  | append_singleton segments segment ih =>
      obtain ⟨hbefore, hsegment⟩ := List.forall_mem_append.mp hsegments
      cases hmagic : hasMagic (joined (segments ++ [segment])) with
      | false =>
          have hnames := hrow.eq_of_plain (hasMagic_joined_eq_false_iff.mp hmagic)
          subst hnames
          have hthere := hsound.lookup?_joined hne
            (fun name hname => (hsegments name hname).isPathName) (h.find?_eq hsound)
          rw [walk_of_plain hsegments hmagic, hthere]
          exact ⟨_, List.mem_singleton_self _, .plain _⟩
      | true =>
          rw [walk_of_magic hsegments hmagic]
          obtain ⟨before, part, hstart, htakes, rfl, hpart⟩ := hrow.exists_last hleads
          obtain ⟨directory, hdirectory, hspells⟩ : ∃ directory ∈
              (if hasMagic (joined segments) then tree.walk (joined segments) true
                else [joined segments]), Spells directory before := by
            split
            · next hmore =>
              have hnil : segments ≠ [] := by
                rintro rfl
                exact Bool.false_ne_true hmore
              -- A part that is not empty stands below a directory.
              rcases hpart with ⟨hpart, -⟩ | ⟨rfl, -, hleads⟩
              · obtain ⟨entries, hthere, -, hentry⟩ := h.exists_directory hpart
                refine ih hthere hnil hbefore hstart ?_ fun hfile => Bool.noConfusion hfile
                rintro _ ⟨⟩
                exact hentry
              · rw [List.append_nil] at h
                exact ih h hnil hbefore hstart hfull fun hfile => (hleads hfile).2
            · next hnone =>
              have hplain := Bool.eq_false_iff.mpr hnone
              have hsame := hstart.eq_of_plain (hasMagic_joined_eq_false_iff.mp hplain)
              exact ⟨_, List.mem_singleton_self _, hsame ▸ .plain _⟩
          obtain ⟨last, hlast, htext⟩ : ∃ last ∈ tree.lastIn directory segment onlyDirectories,
              Spells (joinPaths directory last) (before ++ part) := by
            rcases hpart with ⟨hne, hkind⟩ | ⟨rfl, rfl, hfile⟩
            · exact h.exists_mem_lastIn hsound hspells htakes hne hkind
            · rw [List.append_nil] at h ⊢
              refine h.exists_mem_lastIn_allName hsound hspells fun htests => ?_
              cases node with
              | file bytes => exact absurd htests (Bool.eq_false_iff.mp (hfile rfl).1)
              | directory entries => exact ⟨entries, rfl, hfull entries rfl⟩
          exact ⟨_, List.mem_flatMap.mpr ⟨directory, hdirectory,
            List.mem_map.mpr ⟨last, hlast, rfl⟩⟩, htext⟩

end Walk

end Tree

end KeyOrder
