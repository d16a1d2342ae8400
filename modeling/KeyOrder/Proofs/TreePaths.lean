import KeyOrder.Proofs.SpelledPaths
/-!
# Paths in sound trees

Everything below a node stands under the path of its names.  In a sound tree, whose paths are
no longer than the system lets them be, texts lead to what stands under the names that they
spell.
-/

namespace KeyOrder

/-! ## What stands below a node -/

/-- What stands below entries is one of them or stands below one. -/
theorem mem_descendantsOfEntries {onlyDirectories : Bool} {entries : List (CodeText × Node)}
    {path : CodeText} : path ∈ descendantsOfEntries onlyDirectories entries ↔
      ∃ entry ∈ entries, (onlyDirectories && entry.2.isFile) = false ∧ (path = entry.1 ∨
        ∃ below ∈ entry.2.descendants onlyDirectories, path = joinPaths entry.1 below) := by
  induction entries with
  | nil =>
      rw [descendantsOfEntries]
      exact iff_of_false List.not_mem_nil fun ⟨_, h, _⟩ => List.not_mem_nil h
  | cons entry entries ih =>
      obtain ⟨name, node⟩ := entry
      rw [descendantsOfEntries, List.mem_append, ih]
      simp only [List.mem_cons, exists_eq_or_imp]
      refine or_congr_left ?_
      cases hskipped : onlyDirectories && node.isFile with
      | true => exact iff_of_false List.not_mem_nil fun h => Bool.noConfusion h.1
      | false =>
          rw [if_neg Bool.false_ne_true, List.mem_cons, List.mem_map, and_iff_right rfl]
          exact or_congr_right (exists_congr fun below => and_congr_right fun _ => eq_comm)

/-- In a sound node stand the paths of all that it holds below itself, or of the directories. -/
theorem Node.IsSound.mem_descendants_iff {node : Node} (h : node.IsSound) {onlyDirectories : Bool}
    {path : CodeText} : path ∈ node.descendants onlyDirectories ↔ ∃ names inner, names ≠ [] ∧
      node.Holds names inner ∧ (onlyDirectories && inner.isFile) = false ∧ path = joined names := by
  induction h generalizing path with
  | file bytes =>
      rw [Node.descendants]
      refine iff_of_false List.not_mem_nil ?_
      rintro ⟨names, inner, hne, hholds, -⟩
      cases hholds with
      | here => exact hne rfl
  | @directory entries hnames hdistinct hinner ih =>
      have hjoin : ∀ entry ∈ entries, ∀ names inner, names ≠ [] → entry.2.Holds names inner →
          joinPaths entry.1 (joined names) = joined (entry.1 :: names) := by
        intro entry hentry names inner hne hholds
        have hvalid := fun name hname =>
          (hholds.isEntryName (hinner entry hentry) name hname).isPathName
        have hfirst := Spells.joinPaths_joined hvalid (.plain [entry.1])
          (List.forall_mem_singleton.mpr (hnames entry hentry).isPathName) hne
        rwa [joined_singleton] at hfirst
      rw [Node.descendants, mem_descendantsOfEntries]
      constructor
      · rintro ⟨entry, hentry, hkept, rfl | ⟨below, hbelow, rfl⟩⟩
        · exact ⟨[entry.1], entry.2, List.cons_ne_nil _ _, .under hentry (.here _), hkept,
            (joined_singleton _).symm⟩
        · obtain ⟨names, inner, hne, hholds, hkind, rfl⟩ := (ih entry hentry).mp hbelow
          exact ⟨entry.1 :: names, inner, List.cons_ne_nil _ _, .under hentry hholds, hkind,
            hjoin entry hentry names inner hne hholds⟩
      · rintro ⟨_, inner, hne, hholds, hkind, rfl⟩
        cases hholds with
        | here => exact absurd rfl hne
        | @under _ name next _ names hentry hholds =>
            by_cases hnil : names = []
            · subst hnil
              cases hholds with
              | here => exact ⟨(name, inner), hentry, hkind, Or.inl (joined_singleton _)⟩
            · refine ⟨(name, next), hentry, ?_, Or.inr ⟨joined names, ?_, ?_⟩⟩
              · obtain ⟨first, names, rfl⟩ := List.exists_cons_of_ne_nil hnil
                obtain ⟨entries, _, rfl, -, -⟩ := hholds.exists_entry
                exact Bool.and_false _
              · exact (ih _ hentry).mpr ⟨names, inner, hnil, hholds, hkind, rfl⟩
              · exact (hjoin _ hentry names inner hnil hholds).symm

/-- The files of entries are the files below them. -/
theorem mem_filesOfEntries {entries : List (CodeText × Node)} {file : CodeText × List UInt8}
    (h : file ∈ filesOfEntries entries) : ∃ entry ∈ entries, ∃ below ∈ entry.2.files,
      file = (joinIfAny entry.1 below.1, below.2) := by
  induction entries with
  | nil =>
      rw [filesOfEntries] at h
      exact absurd h List.not_mem_nil
  | cons entry entries ih =>
      obtain ⟨name, node⟩ := entry
      rw [filesOfEntries, List.mem_append, List.mem_map] at h
      rcases h with ⟨below, hbelow, rfl⟩ | h
      · exact ⟨(name, node), List.mem_cons_self, below, hbelow, rfl⟩
      · obtain ⟨entry, hentry, hbelow⟩ := ih h
        exact ⟨entry, List.mem_cons_of_mem _ hentry, hbelow⟩

/-- The files of a sound node are held under their names. -/
theorem Node.IsSound.exists_of_mem_files {node : Node} (h : node.IsSound)
    {file : CodeText × List UInt8} (hfile : file ∈ node.files) :
    ∃ names, node.Holds names (.file file.2) ∧ file.1 = joined names := by
  induction h generalizing file with
  | file bytes =>
      rw [Node.files] at hfile
      obtain rfl := List.mem_singleton.mp hfile
      exact ⟨[], .here _, rfl⟩
  | @directory entries hnames hdistinct hinner ih =>
      rw [Node.files] at hfile
      obtain ⟨entry, hentry, below, hbelow, rfl⟩ := mem_filesOfEntries hfile
      obtain ⟨names, hholds, hpath⟩ := ih entry hentry hbelow
      refine ⟨entry.1 :: names, .under hentry hholds, ?_⟩
      have hname := hnames entry hentry
      have hvalid := fun name hname =>
        (hholds.isEntryName (hinner entry hentry) name hname).isPathName
      dsimp only
      rw [joinIfAny, if_neg (by simpa using hname.nonempty), hpath]
      by_cases hnil : names = []
      · subst hnil
        rw [joined_singleton]
        rfl
      · have hfirst := Spells.joinPaths_joined hvalid (.plain [entry.1])
          (List.forall_mem_singleton.mpr hname.isPathName) hnil
        rw [if_neg (by simpa using joined_ne_nil hnil hvalid)]
        rwa [joined_singleton] at hfirst

/-! ## Looking up texts -/

namespace Tree

/-- What a text leads to is the node of its path. -/
theorem node_of_lookup? {tree : Tree} {text : CodeText} {node : Node}
    (h : tree.lookup? text = some node) :
    tree.node (tree.working.inside (Path.literal text)) = .ok node := by
  rw [lookup?] at h
  split at h
  · cases h
  · cases hresult : tree.node (tree.working.inside (Path.literal text)) with
    | ok found =>
        rw [hresult] at h
        exact congrArg Except.ok (Option.some.inj h)
    | error refusal =>
        rw [hresult] at h
        cases h

section IsSound

variable {tree : Tree} (hsound : tree.IsSound)

include hsound

/-- The names of the working directory can be names. -/
theorem IsSound.isEntryName_working : ∀ name ∈ tree.working.names, IsEntryName name := by
  obtain ⟨entries, hworking⟩ := hsound.working
  have hall := Node.Holds.isEntryName hworking hsound.top
  rwa [List.append_nil] at hall

/-- The names that a sound tree has can be names. -/
theorem Has.isEntryName {names : List CodeText} {node : Node} (h : tree.Has names node) :
    ∀ name ∈ names, IsEntryName name :=
  (List.forall_mem_append.mp (Node.Holds.isEntryName h hsound.top)).2

/-- What a sound tree has is found. -/
theorem Has.find?_eq {names : List CodeText} {node : Node} (h : tree.Has names node) :
    tree.top.find? (tree.working.names ++ names) = some node :=
  Node.Holds.find?_eq h hsound.top

/-- What is found in a sound tree is there under the same names. -/
theorem IsSound.exists_has {names : List CodeText} {node : Node}
    (h : tree.top.find? (tree.working.names ++ names) = some node) :
    ∃ names', tree.Has names' node ∧
      List.Forall₂ (fun name name' => sameName name name' = true) names names' := by
  obtain ⟨entries, hworking⟩ := hsound.working
  rw [Has, List.append_nil] at hworking
  rw [Node.find?_append, hworking.find?_eq hsound.top] at h
  obtain ⟨names', hholds, hall⟩ := Node.exists_holds_of_find? h
  exact ⟨names', hworking.append hholds, hall⟩

/-- The text of a full path. -/
theorem IsSound.text_fullPath (names : List CodeText) :
    (tree.fullPath names).text = tree.working.root ++ joined (tree.working.names ++ names) := by
  rcases hsound.root with hroot | hroot <;>
    rw [Path.text, fullPath, hroot] <;> rfl

/-- No path that is found is too long. -/
theorem IsSound.size_of_find? {names : List CodeText} {node : Node}
    (h : tree.top.find? (tree.working.names ++ names) = some node) :
    pathSize (tree.fullPath names).text < pathBytesLimit := by
  obtain ⟨names', hhas, hall⟩ := hsound.exists_has h
  have hworking : List.Forall₂ (fun name name' => sameName name name' = true) tree.working.names
      tree.working.names :=
    List.forall₂_same.mpr fun name hname =>
      sameName_iff.mpr ⟨(hsound.isEntryName_working name hname).bytes, rfl⟩
  have hbytes := pathBytes?_joined_congr (List.rel_append hworking hall)
  have hsize := hsound.size names' node hhas
  rw [hsound.text_fullPath, pathSize, pathBytes?_append] at hsize ⊢
  rwa [hbytes]

/-- The text of the working directory joined with the path of names is their full path. -/
theorem IsSound.joinPaths_working {names : List CodeText} (hne : names ≠ [])
    (hnames : ∀ name ∈ names, IsPathName name) :
    joinPaths tree.working.text (joined names) = (tree.fullPath names).text := by
  have hworking : tree.working.text = tree.working.root ++ joined tree.working.names := by
    have htext := hsound.text_fullPath []
    rwa [List.append_nil, fullPath, List.append_nil] at htext
  rw [hworking, hsound.text_fullPath, joinPaths, if_neg (head?_joined_ne hnames)]
  have hroot : tree.working.root ≠ [] ∧ tree.working.root.getLast? = some slash := by
    rcases hsound.root with hroot | hroot <;> rw [hroot] <;> exact ⟨List.cons_ne_nil _ _, rfl⟩
  have hvalid := fun name hname => (hsound.isEntryName_working name hname).isPathName
  by_cases hnil : tree.working.names = []
  · rw [hnil, joined_nil, List.append_nil, List.nil_append, if_pos (by simp [hroot.2])]
  · have hlast : ¬ ((tree.working.root ++ joined tree.working.names).isEmpty ||
        (tree.working.root ++ joined tree.working.names).getLast? = some slash) := by
      rw [List.getLast?_append_of_ne_nil _ (joined_ne_nil hnil hvalid)]
      simpa [hroot.1] using getLast?_joined_ne hvalid
    rw [if_neg hlast, joined_append hnil hne, List.append_assoc]

/-- A node is reached under the names under which it is found; a directory also with a dot behind
them. -/
theorem IsSound.node_fullPath {names : List CodeText} {node : Node} (dots : List CodeText)
    (hnames : ∀ name ∈ names, IsPathName name)
    (h : tree.top.find? (tree.working.names ++ names) = some node)
    (hsize : pathSize (tree.fullPath (names ++ dots)).text < pathBytesLimit)
    (hdots : dots = [] ∨ dots = [currentName] ∧ node.isFile = false) :
    tree.node (tree.fullPath (names ++ dots)) = .ok node := by
  have hall : ∀ name ∈ tree.working.names ++ names, name ≠ currentName ∧ name ≠ parentName := by
    refine List.forall_mem_append.mpr ⟨fun name hname => ?_, fun name hname => ?_⟩
    · have hentry := hsound.isEntryName_working name hname
      exact ⟨hentry.current, hentry.parent⟩
    · exact ⟨(hnames name hname).current, (hnames name hname).parent⟩
  obtain ⟨trail, htrail, hend, hfollow⟩ :=
    Node.follow_append [] rfl hsound.top h hall dots
  have hplace : tree.top.follow [] (tree.working.names ++ names ++ dots)
      = .ok (tree.working.names ++ names) := by
    rw [hfollow]
    rcases hdots with rfl | ⟨rfl, hnode⟩
    · rw [Node.follow, htrail]
      rfl
    · cases node with
      | file bytes => cases hnode
      | directory entries =>
          rw [Node.follow, hend]
          dsimp only
          rw [if_pos rfl, Node.follow, htrail]
          rfl
  rw [List.append_assoc] at hplace
  rw [Tree.node, locate, if_neg (Nat.not_le.mpr hsize), fullPath, hplace]
  refine bind_eq_ok_iff.mpr ⟨_, rfl, ?_⟩
  rw [h]

/-- What is found under names is what their full path leads to. -/
theorem IsSound.node_of_find? {names : List CodeText} {node : Node}
    (hnames : ∀ name ∈ names, IsPathName name)
    (h : tree.top.find? (tree.working.names ++ names) = some node) :
    tree.node (tree.fullPath names) = .ok node := by
  have hnode := hsound.node_fullPath [] hnames h
    (by rw [List.append_nil]; exact hsound.size_of_find? h) (Or.inl rfl)
  rwa [List.append_nil] at hnode

/-- What is reached under names is found under them. -/
theorem IsSound.find?_of_node {names : List CodeText} {node : Node} (dots : List CodeText)
    (hnames : ∀ name ∈ names, IsPathName name) (hdots : dots = [] ∨ dots = [currentName])
    (h : tree.node (tree.fullPath (names ++ dots)) = .ok node) :
    tree.top.find? (tree.working.names ++ names) = some node := by
  obtain ⟨place, hplace, h⟩ := bind_eq_ok_iff.mp h
  have hfind : tree.top.find? place = some node := by
    split at h
    · next found hfound =>
      obtain rfl := Except.ok.inj h
      exact hfound
    · cases h
  have hrow : place = tree.working.names ++ names := by
    rw [locate] at hplace
    split at hplace
    · cases hplace
    · have hworking := hsound.isEntryName_working
      have hparent : parentName ∉ tree.working.names ++ (names ++ dots) := by
        simp only [List.mem_append, not_or]
        refine ⟨fun hmem => (hworking _ hmem).parent rfl,
          fun hmem => (hnames _ hmem).parent rfl, ?_⟩
        rcases hdots with rfl | rfl <;> decide
      have hkept : (tree.working.names ++ names).filter (· != currentName)
          = tree.working.names ++ names := by
        refine List.filter_eq_self.mpr (List.forall_mem_append.mpr ⟨?_, ?_⟩)
        · exact fun name hname => by simpa using (hworking name hname).current
        · exact fun name hname => by simpa using (hnames name hname).current
      have hdropped : dots.filter (· != currentName) = [] := by
        rcases hdots with rfl | rfl <;> rfl
      rw [Node.follow_eq_ok hparent hplace, ← List.append_assoc, List.filter_append, hkept,
        hdropped, List.append_nil]
      rfl
  rwa [hrow] at hfind

/-- What is found under names is what their path leads to. -/
theorem IsSound.lookup?_joined {names : List CodeText} {node : Node} (hne : names ≠ [])
    (hnames : ∀ name ∈ names, IsPathName name)
    (h : tree.top.find? (tree.working.names ++ names) = some node) :
    tree.lookup? (joined names) = some node := by
  have hsize := hsound.size_of_find? h
  rw [lookup?, hsound.joinPaths_working hne hnames, if_neg (Nat.not_le.mpr hsize),
    literal_joined hnames]
  exact congrArg Except.toOption (hsound.node_of_find? hnames h)

/-- What a text leads to is found under its names. -/
theorem IsSound.find?_of_lookup? {text : CodeText} {names : List CodeText} {node : Node}
    (htext : Spells text names) (hnames : ∀ name ∈ names, IsPathName name)
    (h : tree.lookup? text = some node) :
    tree.top.find? (tree.working.names ++ names) = some node := by
  have hnode := node_of_lookup? h
  cases htext with
  | plain =>
      rw [literal_joined hnames] at hnode
      refine hsound.find?_of_node [] hnames (Or.inl rfl) ?_
      rwa [List.append_nil]
  | ended hne =>
      rw [literal_joined_slash hnames hne] at hnode
      exact hsound.find?_of_node [currentName] hnames (Or.inr rfl) hnode

/-- A full path of names that can be names has bytes. -/
theorem IsSound.isSome_fullPath {names : List CodeText}
    (hbytes : ∀ name ∈ names, (pathBytes? name).isSome = true) :
    (pathBytes? (tree.fullPath names).text).isSome = true := by
  rw [hsound.text_fullPath, isSome_pathBytes?_append]
  constructor
  · rcases hsound.root with hroot | hroot <;> rw [hroot] <;> rfl
  · refine isSome_pathBytes?_joined (List.forall_mem_append.mpr ⟨fun name hname => ?_, hbytes⟩)
    exact (hsound.isEntryName_working name hname).bytes

/-- Behind other names one more takes a slash and its own bytes. -/
theorem IsSound.pathSize_concat (names : List CodeText) {name : CodeText}
    (hbytes : ∀ other ∈ names, (pathBytes? other).isSome = true)
    (hname : (pathBytes? name).isSome = true) (hne : tree.working.names ++ names ≠ []) :
    pathSize (tree.fullPath (names ++ [name])).text
      = pathSize (tree.fullPath names).text + (1 + pathSize name) := by
  have htext : (tree.fullPath (names ++ [name])).text
      = (tree.fullPath names).text ++ ([slash] ++ name) := by
    rw [hsound.text_fullPath, hsound.text_fullPath, ← List.append_assoc,
      joined_append hne (List.cons_ne_nil _ _), joined_singleton, List.append_assoc]
    rfl
  have hslash : (pathBytes? [slash]).isSome = true := rfl
  rw [htext, pathSize_append (hsound.isSome_fullPath hbytes)
    (isSome_pathBytes?_append.mpr ⟨hslash, hname⟩), pathSize_append hslash hname]
  rfl

/-- Where a name stands in the working directory, its path is long enough for a slash instead. -/
theorem IsSound.size_joinPaths_nil {name : CodeText} {node : Node} (h : tree.Has [name] node) :
    pathSize (joinPaths tree.working.text []) < pathBytesLimit := by
  obtain ⟨entries, hworking⟩ := hsound.working
  have htext : tree.working.text = (tree.fullPath []).text := by
    rw [fullPath, List.append_nil]
  have hsize := hsound.size _ _ hworking
  have hname := h.isEntryName hsound name List.mem_cons_self
  unfold joinPaths
  rw [List.head?_nil, if_neg (Option.some_ne_none slash).symm, htext]
  split
  · rwa [List.append_nil]
  · next hlast =>
    have hne : tree.working.names ++ [] ≠ [] := by
      intro hnil
      refine hlast ?_
      rw [hsound.text_fullPath, hnil, joined_nil, List.append_nil]
      rcases hsound.root with hroot | hroot <;> rw [hroot] <;> rfl
    have hlong := hsound.size _ _ h
    have hconcat := hsound.pathSize_concat [] (List.forall_mem_nil _) hname.bytes hne
    rw [List.nil_append] at hconcat
    have hslash : pathSize [slash] = 1 := rfl
    rw [pathSize_append (hsound.isSome_fullPath (List.forall_mem_nil _)) (t := [slash]) rfl]
    have hpos := pathSize_pos hname.nonempty hname.bytes
    omega

/-- A directory with an entry is what the texts that spell its names lead to: the entry has a path
too, which is longer. -/
theorem IsSound.lookup?_of_spells {text : CodeText} {names : List CodeText}
    {entries : List (CodeText × Node)} {entry : CodeText × Node} (htext : Spells text names)
    (h : tree.Has names (.directory entries)) (hentry : entry ∈ entries) :
    tree.lookup? text = some (.directory entries) := by
  have hfind := h.find?_eq hsound
  have hnames := fun name hname => (h.isEntryName hsound name hname).isPathName
  have hbytes := fun name hname => (h.isEntryName hsound name hname).bytes
  have hunder : tree.Has (names ++ [entry.1]) entry.2 := by
    rw [Has, ← List.append_assoc]
    exact Node.Holds.append h (.under hentry (.here _))
  have hname : IsEntryName entry.1 := hunder.isEntryName hsound _ (by simp)
  have hlong := hsound.size _ _ hunder
  have hpos := pathSize_pos hname.nonempty hname.bytes
  cases htext with
  | plain =>
      by_cases hne : names = []
      · subst hne
        rw [lookup?, joined_nil, if_neg (Nat.not_le.mpr (hsound.size_joinPaths_nil hunder))]
        exact congrArg Except.toOption (hsound.node_of_find? hnames hfind)
      · exact hsound.lookup?_joined hne hnames hfind
  | ended hne =>
      have hne' : tree.working.names ++ names ≠ [] := List.append_ne_nil_of_right_ne_nil _ hne
      have hdot : (pathBytes? currentName).isSome = true := rfl
      have hdotSize : pathSize currentName = 1 := rfl
      rw [hsound.pathSize_concat names hbytes hname.bytes hne'] at hlong
      have hnode := hsound.node_fullPath [currentName] hnames hfind (by
        rw [hsound.pathSize_concat names hbytes hdot hne']
        omega) (Or.inr ⟨rfl, rfl⟩)
      have hsize : pathSize (joinPaths tree.working.text (joined names ++ [slash]))
          < pathBytesLimit := by
        rw [joinPaths_append (joined_ne_nil hne hnames) (head?_joined_ne hnames),
          hsound.joinPaths_working hne hnames,
          pathSize_append (hsound.isSome_fullPath hbytes) (t := [slash]) rfl]
        have hslash : pathSize [slash] = 1 := rfl
        omega
      rw [lookup?, if_neg (Nat.not_le.mpr hsize), literal_joined_slash hnames hne]
      exact congrArg Except.toOption hnode

/-- The full path of sound names has no null character. -/
theorem Has.null_not_mem {names : List CodeText} {node : Node} (h : tree.Has names node) :
    .scalar '\x00' ∉ (tree.fullPath names).text := by
  rw [hsound.text_fullPath, List.mem_append, not_or]
  constructor
  · rcases hsound.root with hroot | hroot <;> rw [hroot] <;> decide
  · intro hnull
    rcases mem_joined hnull with hnull | ⟨name, hname, hnull⟩
    · exact absurd hnull (by decide)
    · rcases List.mem_append.mp hname with hname | hname
      · exact (hsound.isEntryName_working name hname).null hnull
      · exact (h.isEntryName hsound name hname).null hnull

/-- The full path of sound names is one that a file can have. -/
theorem Has.pathFault? {names : List CodeText} {node : Node} (h : tree.Has names node) :
    pathFault? (tree.fullPath names).text = none :=
  pathFault?_eq_none_iff.mpr
    ⟨hsound.isSome_fullPath fun name hname => (h.isEntryName hsound name hname).bytes,
      h.null_not_mem hsound⟩

section Test

variable {text : CodeText} {names : List CodeText} {node : Node} {kind : Node → Bool}
  (htext : Spells text names)

include htext

/-- A text is tested on the node that is found under its names. -/
theorem IsSound.test_of_find? (hnames : ∀ name ∈ names, IsPathName name)
    (h : tree.top.find? (tree.working.names ++ names) = some node) :
    tree.test text kind
      = .ok ((KeyOrder.pathFault? (tree.fullPath names).text).isNone && kind node) := by
  have hpath : tree.path text = tree.fullPath names := by
    rw [path, ofText_of_spells hnames htext]
    rfl
  have hnode := hsound.node_of_find? hnames h
  rw [test, soundPath, hpath]
  cases KeyOrder.pathFault? (tree.fullPath names).text with
  | some fault => rfl
  | none =>
      dsimp only
      rw [hnode]
      rfl

/-- A text is tested on the node that stands under its names. -/
theorem Has.test (h : tree.Has names node) : tree.test text kind = .ok (kind node) := by
  rw [hsound.test_of_find? htext (fun name hname => (h.isEntryName hsound name hname).isPathName)
    (h.find?_eq hsound), h.pathFault? hsound]
  rfl

/-- A text that passes a test leads to a node that does. -/
theorem IsSound.exists_of_test (hnames : ∀ name ∈ names, IsPathName name)
    (h : tree.test text kind = .ok true) :
    ∃ node, tree.top.find? (tree.working.names ++ names) = some node ∧ kind node = true := by
  have hpath : tree.path text = tree.fullPath names := by
    rw [path, ofText_of_spells hnames htext]
    rfl
  rw [test, soundPath, hpath] at h
  cases hfault : KeyOrder.pathFault? (tree.fullPath names).text with
  | some fault =>
      rw [hfault] at h
      cases h
  | none =>
      rw [hfault] at h
      dsimp only at h
      split at h
      · next node hnode =>
        refine ⟨node, hsound.find?_of_node [] hnames (Or.inl rfl) ?_, Except.ok.inj h⟩
        rwa [List.append_nil]
      · cases h
      · cases h

end Test

/-- The files of a sound tree are there under their names. -/
theorem IsSound.exists_of_mem_files {file : CodeText × List UInt8} (h : file ∈ tree.files) :
    ∃ names, names ≠ [] ∧ tree.Has names (.file file.2) ∧ file.1 = joined names := by
  obtain ⟨entries, hworking⟩ := hsound.working
  rw [Has, List.append_nil] at hworking
  rw [files, hworking.find?_eq hsound.top] at h
  obtain ⟨names, hholds, hpath⟩ := (hworking.isSound hsound.top).exists_of_mem_files h
  refine ⟨names, ?_, hworking.append hholds, hpath⟩
  rintro rfl
  cases hholds

end IsSound

end Tree

end KeyOrder
