import KeyOrder.Proofs.Walks
/-!
# Searches in directory trees

A search keeps the files among the texts that a pattern leads to.  Where it does not have to go
on too deeply within itself, and the directory in which it starts has a path that files can
have, it finds exactly the files that the pattern leads to.
-/

namespace KeyOrder

open Glob (IsSegment Takes)

/-! ## How deeply searches go on -/

/-- What stands below an entry, and the entry itself, are levels of the entries. -/
theorem Node.levels_le_of_mem {entries : List (CodeText × Node)} {entry : CodeText × Node}
    (h : entry ∈ entries) (onlyDirectories : Bool) :
    entry.2.levels onlyDirectories ≤ levelsOfEntries onlyDirectories entries := by
  induction entries with
  | nil => exact absurd h List.not_mem_nil
  | cons first entries ih =>
      rw [levelsOfEntries]
      rcases List.mem_cons.mp h with rfl | h
      · refine le_trans ?_ (Nat.le_max_left ..)
        cases entry.2 with
        | file bytes => exact Nat.zero_le _
        | directory inner =>
            rw [Node.isFile, Bool.and_false, if_neg Bool.false_ne_true]
            exact Nat.le_succ _
      · exact (ih h).trans (Nat.le_max_right ..)

/-- What is found in a tree has no more levels below it than the tree. -/
theorem Node.levels_le_of_find? {top node : Node} {names : List CodeText}
    (h : top.find? names = some node) (onlyDirectories : Bool) :
    node.levels onlyDirectories ≤ top.levels onlyDirectories := by
  induction names generalizing top with
  | nil =>
      obtain rfl := Option.some.inj h
      exact le_rfl
  | cons name names ih =>
      cases top with
      | file bytes => cases h
      | directory entries =>
          rw [Node.find?] at h
          split at h
          · next inner hinner =>
            obtain ⟨entry, hentry, rfl⟩ := Option.map_eq_some_iff.mp hinner
            exact (ih h).trans
              (Node.levels_le_of_mem (List.mem_of_find?_eq_some hentry) onlyDirectories)
          · cases h

mutual

/-- There are no more levels of directories than levels. -/
theorem Node.levels_true_le (node : Node) : node.levels true ≤ node.levels false := by
  cases node with
  | file bytes => exact le_rfl
  | directory entries => exact levelsOfEntries_true_le entries

/-- So it is with entries. -/
theorem levelsOfEntries_true_le (entries : List (CodeText × Node)) :
    levelsOfEntries true entries ≤ levelsOfEntries false entries := by
  cases entries with
  | nil => exact le_rfl
  | cons entry entries =>
      rw [levelsOfEntries, levelsOfEntries]
      refine max_le_max ?_ (levelsOfEntries_true_le entries)
      split
      · exact Nat.zero_le _
      · exact Nat.succ_le_succ (Node.levels_true_le entry.2)

end

namespace Tree

variable {tree : Tree}

/-- What a text leads to has no more levels below it than the tree. -/
theorem levels_le_of_lookup? {text : CodeText} {node : Node} (h : tree.lookup? text = some node)
    (onlyDirectories : Bool) : node.levels onlyDirectories ≤ tree.top.levels false := by
  obtain ⟨place, -, hfound⟩ := bind_eq_ok_iff.mp (node_of_lookup? h)
  have hplace : tree.top.find? place = some node := by
    split at hfound
    · next found hfind => rw [hfind, Except.ok.inj hfound]
    · cases hfound
  refine (Node.levels_le_of_find? hplace onlyDirectories).trans ?_
  cases onlyDirectories with
  | false => exact le_rfl
  | true => exact Node.levels_true_le tree.top

/-- Searches for the last name of a pattern go on within one another once for each level of the tree
and twice more at most. -/
theorem searchesIn_le (directory name : CodeText) (onlyDirectories : Bool) :
    tree.searchesIn directory name onlyDirectories ≤ tree.top.levels false + 2 := by
  rw [searchesIn]
  split
  · refine Nat.add_le_add_right ?_ 2
    cases hlookup : tree.lookup? directory with
    | none => exact Nat.zero_le _
    | some node => exact levels_le_of_lookup? hlookup onlyDirectories
  · omega

/-- Searches for a pattern go on within one another once for each of its names more at most. -/
theorem searches_joined_le [Platform] {segments : List CodeText}
    (hsegments : ∀ segment ∈ segments, IsSegment segment) (onlyDirectories : Bool) :
    tree.searches (joined segments) onlyDirectories
      ≤ segments.length + (tree.top.levels false + 2) := by
  induction segments using List.reverseRecOn generalizing onlyDirectories with
  | nil =>
      rw [joined_nil, searches]
      exact Nat.le_trans (by decide : 1 ≤ 2) (by omega)
  | append_singleton segments segment ih =>
      obtain ⟨hbefore, -⟩ := List.forall_mem_append.mp hsegments
      have hnames := fun name hname => (hsegments name hname).isPathName
      have hlast := fun directory => tree.searchesIn_le directory segment onlyDirectories
      rw [searches, splitLast_joined hnames, List.length_append, List.length_singleton]
      dsimp only
      split_ifs
      · omega
      · have := hlast []
        omega
      · have hdirectories := ih hbefore true
        have hfound : (((tree.walk (joined segments) true).map fun found =>
            tree.searchesIn found segment onlyDirectories).foldl max 0)
              ≤ tree.top.levels false + 2 :=
          Glob.foldl_max_le_iff.mpr ⟨Nat.zero_le _, List.forall_mem_map.mpr fun found _ =>
            hlast found⟩
        omega
      · have := hlast (joined segments)
        omega

end Tree

/-! ## Where searches start -/

/-- The first item of a list that passes a test. -/
theorem exists_first {α : Type} {test : α → Bool} {items : List α} (h : items.any test = true) :
    ∃ before item after, items = before ++ item :: after ∧ (∀ other ∈ before, test other = false) ∧
      test item = true := by
  obtain ⟨item, hitem⟩ :=
    Option.isSome_iff_exists.mp (List.find?_isSome.mpr (List.any_eq_true.mp h))
  obtain ⟨htest, before, after, rfl, hbefore⟩ := List.find?_eq_some_iff_append.mp hitem
  exact ⟨before, item, after, rfl, fun other hother => by simpa using hbefore other hother, htest⟩

namespace Tree

variable {tree : Tree}

/-! ## Files -/

/-- A search for a pattern finds a path. -/
def Finds [Platform] (tree : Tree) (pattern path : CodeText) : Prop :=
  ∃ found, tree.glob pattern = .ok found ∧ path ∈ found

/-- If each text can be tested, those that lead to files are kept, their paths normalised. -/
theorem exists_keepFiles {texts : List CodeText}
    (h : ∀ text ∈ texts, ∃ isFile, tree.test text Node.isFile = .ok isFile) :
    ∃ found, tree.keepFiles texts = .ok found := by
  induction texts with
  | nil => exact ⟨[], rfl⟩
  | cons text texts ih =>
      obtain ⟨⟨isFile, htest⟩, hrest⟩ := List.forall_mem_cons.mp h
      obtain ⟨others, hothers⟩ := ih hrest
      exact ⟨_, by rw [keepFiles, htest, hothers]; rfl⟩

/-- The texts that are kept are those that lead to files. -/
theorem mem_of_keepFiles {texts found : List CodeText} (h : tree.keepFiles texts = .ok found)
    {path : CodeText} : path ∈ found ↔ ∃ text ∈ texts, tree.test text Node.isFile = .ok true ∧
      (Path.ofText text).text = path := by
  induction texts generalizing found with
  | nil =>
      obtain rfl := Except.ok.inj h
      exact iff_of_false List.not_mem_nil fun ⟨_, hmem, _⟩ => List.not_mem_nil hmem
  | cons text texts ih =>
      rw [keepFiles] at h
      obtain ⟨isFile, htest, h⟩ := bind_eq_ok_iff.mp h
      obtain ⟨others, hothers, h⟩ := bind_eq_ok_iff.mp h
      obtain rfl := Except.ok.inj h
      simp only [List.mem_cons, exists_eq_or_imp]
      rw [← ih hothers, htest]
      cases isFile with
      | true => simp [eq_comm]
      | false => simp

section Glob

variable (hsound : tree.IsSound) {segments names : List CodeText}
  (hsegments : ∀ segment ∈ segments, IsSegment segment)

include hsound

/-- The path of names under which something stands is one that a file can have, with the path of
the working directory in front of it. -/
theorem Has.pathFault?_joinPaths {node : Node} (h : tree.Has names node) :
    KeyOrder.pathFault? (joinPaths tree.working.text (joined names)) = none := by
  have hnames := fun name hname => h.isEntryName hsound name hname
  by_cases hnil : names = []
  · subst hnil
    have htext : tree.working.text = (tree.fullPath []).text := by
      rw [fullPath, List.append_nil]
    have hbytes := hsound.isSome_fullPath fun name hname => (hnames name hname).bytes
    have hnull := h.null_not_mem hsound
    unfold joinPaths
    rw [joined_nil, List.head?_nil, if_neg (Option.some_ne_none slash).symm, htext]
    split
    · rw [List.append_nil]
      exact pathFault?_eq_none_iff.mpr ⟨hbytes, hnull⟩
    · refine pathFault?_eq_none_iff.mpr ⟨isSome_pathBytes?_append.mpr ⟨hbytes, rfl⟩, ?_⟩
      rw [List.mem_append, not_or]
      exact ⟨hnull, by decide⟩
  · rw [hsound.joinPaths_working hnil fun name hname => (hnames name hname).isPathName]
    exact h.pathFault? hsound

omit hsound

include hsegments

/-- The directory in which a search starts is the path of the plain names at the start. -/
theorem exists_startOf (hmagic : hasMagic (joined segments) = true) :
    ∃ plain, plain <+: segments ∧ (∀ segment ∈ plain, hasMagic segment = false) ∧
      startOf (joined segments) = joined plain := by
  have hany : segments.any hasMagic = true := by
    refine Bool.eq_true_of_not_eq_false fun hnone => Bool.false_ne_true ?_
    rw [← hmagic, hasMagic_joined_eq_false_iff.mpr]
    exact fun segment hsegment => by simpa using List.any_eq_false.mp hnone segment hsegment
  obtain ⟨plain, first, more, rfl, hplain, hfirst⟩ := exists_first hany
  obtain ⟨before, c, after, rfl, hbefore, hc⟩ := exists_first hfirst
  obtain ⟨rest, hrest⟩ : ∃ rest, joined ((before ++ c :: after) :: more) = before ++ c :: rest := by
    by_cases hnil : more = []
    · subst hnil
      exact ⟨after, joined_singleton _⟩
    · refine ⟨after ++ slash :: joined more, ?_⟩
      rw [joined_cons _ hnil, List.append_assoc, List.cons_append]
  have hslash : slash ∉ before := fun h =>
    (hsegments (before ++ c :: after) (by simp)).slash (List.mem_append_left _ h)
  have htake : ∀ front : CodeText, (∀ d ∈ front, isMagic d = false) →
      (front ++ c :: rest).takeWhile (fun d => !isMagic d) = front := by
    intro front hfront
    rw [List.takeWhile_append_of_pos fun d hd => by rw [hfront d hd]; rfl,
      List.takeWhile_cons_of_neg (by rw [hc]; decide), List.append_nil]
  refine ⟨plain, List.prefix_append _ _, hplain, ?_⟩
  rw [startOf]
  by_cases hnil : plain = []
  · subst hnil
    rw [List.nil_append, hrest, htake before hbefore, splitLast_of_not_mem hslash]
    rfl
  · have hfront : ∀ d ∈ joined plain ++ slash :: before, isMagic d = false := by
      refine List.forall_mem_append.mpr ⟨?_, List.forall_mem_cons.mpr ⟨rfl, hbefore⟩⟩
      have hnone := hasMagic_joined_eq_false_iff.mpr hplain
      exact fun d hd => by simpa using List.any_eq_false.mp hnone d hd
    have htext : joined (plain ++ (before ++ c :: after) :: more)
        = joined plain ++ slash :: before ++ c :: rest := by
      rw [joined_append hnil (List.cons_ne_nil _ _), hrest, List.append_assoc, List.cons_append]
    rw [htext, htake _ hfront, splitLast_joined_append hnil
      (fun name hname => (hsegments name (List.mem_append_left _ hname)).isPathName) hslash]

omit hsegments

/-- What stands under names stands below something under the first of them. -/
theorem Has.exists_of_isPrefix {before : List CodeText} {node : Node} (h : tree.Has names node)
    (hbefore : before <+: names) : ∃ start, tree.Has before start := by
  obtain ⟨more, rfl⟩ := hbefore
  rw [Has, ← List.append_assoc] at h
  obtain ⟨start, hstart, -⟩ := Node.Holds.exists_of_append h
  exact ⟨start, hstart⟩

include hsound hsegments

/-- Where names of a tree are dealt out to a pattern, its search has no fault if it does not have to
go on too deeply within itself. -/
theorem Has.searchFault? [Platform] {node : Node} (h : tree.Has names node)
    (hrow : Row segments names)
    (hsearches : tree.searches (joined segments) false ≤ Platform.maxSearches) :
    tree.searchFault? (joined segments) = none := by
  rw [Tree.searchFault?, if_neg (Nat.not_lt.mpr hsearches)]
  split
  · next hmagic =>
    obtain ⟨plain, hstart, hplain, heq⟩ := exists_startOf hsegments hmagic
    obtain ⟨more, rfl⟩ := hstart
    obtain ⟨start, hthere⟩ := h.exists_of_isPrefix (hrow.isPrefix_of_plain hplain)
    rw [heq]
    exact hthere.pathFault?_joinPaths hsound
  · rfl

omit hsegments in
/-- The working directory is no file, so a file stands under some names. -/
theorem IsSound.ne_nil_of_find? {bytes : List UInt8}
    (h : tree.top.find? (tree.working.names ++ names) = some (.file bytes)) : names ≠ [] := by
  rintro rfl
  obtain ⟨entries, hworking⟩ := hsound.working
  rw [hworking.find?_eq hsound] at h
  cases h

/-- A pattern leads to the files that a search finds. -/
theorem IsSound.leads_of_finds [Platform] (hne : segments ≠ []) (hfull : names ≠ [])
    (hnames : ∀ name ∈ names, IsPathName name)
    (h : tree.Finds (joined segments) (joined names)) : Leads false segments names := by
  obtain ⟨found, hglob, hmem⟩ := h
  rw [glob] at hglob
  split at hglob
  · cases hglob
  · obtain ⟨text, htext, htest, hpath⟩ := (mem_of_keepFiles hglob).mp hmem
    obtain ⟨names', hspells, hreaches⟩ := hsound.exists_reaches_of_mem_walk hne hsegments htext
    obtain ⟨node, hnode, hkind⟩ := hsound.exists_of_test hspells hreaches.path htest
    cases node with
    | directory entries => cases hkind
    | file bytes =>
        have hfull' := hsound.ne_nil_of_find? hnode
        have hsame : joined names' = joined names := by
          rw [ofText_of_spells hreaches.path hspells] at hpath
          obtain ⟨name, rest, rfl⟩ := List.exists_cons_of_ne_nil hfull'
          exact hpath
        have hrow : names' = names := by
          rw [← splitSlashes_joined hfull' fun name hname => (hreaches.path name hname).slash,
            hsame]
          exact splitSlashes_joined hfull fun name hname => (hnames name hname).slash
        have hleads := hreaches.file bytes hnode
        rwa [hrow] at hleads

/-- Where names of a tree are dealt out to a pattern, each text that it leads to can be tested. -/
theorem Has.exists_test_of_mem_walk [Platform] {node : Node} (h : tree.Has names node)
    (hrow : Row segments names) (hne : segments ≠ []) :
    ∀ text ∈ tree.walk (joined segments) false,
      ∃ isFile, tree.test text Node.isFile = .ok isFile := by
  intro text htext
  obtain ⟨names', hspells, hreaches⟩ := hsound.exists_reaches_of_mem_walk hne hsegments htext
  obtain ⟨node, hnode⟩ : ∃ node, tree.top.find? (tree.working.names ++ names') = some node := by
    rcases hreaches.found with hfound | ⟨⟨more, rfl⟩, hplain⟩
    · exact Option.isSome_iff_exists.mp hfound
    · -- Plain names at the start of the pattern are those of the path.
      obtain ⟨start, hthere⟩ := h.exists_of_isPrefix (hrow.isPrefix_of_plain hplain)
      exact ⟨start, hthere.find?_eq hsound⟩
  exact ⟨_, hsound.test_of_find? hspells hreaches.path hnode⟩

/-- A search finds a file exactly if the pattern leads to it. -/
theorem Has.finds_iff [Platform] {bytes : List UInt8} (h : tree.Has names (.file bytes))
    (hne : segments ≠ [])
    (hsearches : tree.searches (joined segments) false ≤ Platform.maxSearches) :
    tree.Finds (joined segments) (joined names) ↔ Leads false segments names := by
  have hnames := fun name hname => (h.isEntryName hsound name hname).isPathName
  have hfull := hsound.ne_nil_of_find? (h.find?_eq hsound)
  constructor
  · exact hsound.leads_of_finds hsegments hne hfull hnames
  · intro hleads
    have hrow := hleads.row
    obtain ⟨text, htext, hspells⟩ := h.exists_mem_walk hsound hne hsegments hrow
      (fun _ hdirectory => by cases hdirectory) fun _ => hleads
    obtain ⟨found, hfound⟩ :=
      exists_keepFiles (h.exists_test_of_mem_walk hsound hsegments hrow hne)
    refine ⟨found, ?_, (mem_of_keepFiles hfound).mpr ⟨text, htext, ?_, ?_⟩⟩
    · rw [glob, h.searchFault? hsound hsegments hrow hsearches]
      exact hfound
    · exact h.test hsound hspells
    · rw [ofText_of_spells hnames hspells]
      obtain ⟨name, rest, rfl⟩ := List.exists_cons_of_ne_nil hfull
      rfl

end Glob

end Tree

end KeyOrder
