import KeyOrder.Proofs.PatternRows
/-!
# Sound trees

The names in a tree are sound: each can be the name of a file, and no two in one directory
are the same.  Then a node holds exactly one node under a row of names, which is the one that is
found, and following the names of a path from the top leads to it.
-/

namespace KeyOrder

/-! ## Sound trees -/

/-- A name that a file or a directory can have. -/
structure IsEntryName (name : CodeText) : Prop where
  nonempty : name ≠ []
  slash : slash ∉ name
  current : name ≠ currentName
  parent : name ≠ parentName
  bytes : (pathBytes? name).isSome = true
  null : .scalar '\x00' ∉ name
  size : pathSize name ≤ maxNameBytes

/-- The names in a directory can be names, and no two of them are the same. -/
inductive Node.IsSound : Node → Prop
  | file (bytes : List UInt8) : IsSound (.file bytes)
  | directory {entries : List (CodeText × Node)} (hnames : ∀ entry ∈ entries, IsEntryName entry.1)
      (hdistinct : entries.Pairwise fun entry other => sameName entry.1 other.1 = false)
      (hinner : ∀ entry ∈ entries, IsSound entry.2) : IsSound (.directory entries)

/-- A node holds another one under a row of names. -/
inductive Node.Holds : Node → List CodeText → Node → Prop
  | here (node : Node) : Holds node [] node
  | under {entries : List (CodeText × Node)} {name : CodeText} {inner node : Node}
      {names : List CodeText} (hentry : (name, inner) ∈ entries) (h : Holds inner names node) :
      Holds (.directory entries) (name :: names) node

/-- The path from the top to a row of names below the working directory. -/
def Tree.fullPath (tree : Tree) (names : List CodeText) : Path :=
  { tree.working with names := tree.working.names ++ names }

/-- A node stands under a row of names below the working directory. -/
def Tree.Has (tree : Tree) (names : List CodeText) (node : Node) : Prop :=
  tree.top.Holds (tree.working.names ++ names) node

/-- The names in a tree are sound, the working directory is one of its directories, and no path
below it is too long. -/
structure Tree.IsSound (tree : Tree) : Prop where
  top : tree.top.IsSound
  root : tree.working.root = [slash] ∨ tree.working.root = [slash, slash]
  working : ∃ entries, tree.Has [] (.directory entries)
  size : ∀ names node, tree.Has names node → pathSize (tree.fullPath names).text < pathBytesLimit

/-! ## Bytes of paths -/

/-- The bytes of two texts one after the other. -/
theorem pathBytes?_append (s t : CodeText) :
    pathBytes? (s ++ t) = (pathBytes? s).bind fun a => (pathBytes? t).map (a ++ ·) := by
  unfold pathBytes?
  rw [List.mapM_append]
  cases s.mapM CodePoint.pathBytes? with
  | none => rfl
  | some a =>
      cases t.mapM CodePoint.pathBytes? with
      | none => rfl
      | some b => exact congrArg some List.flatten_append

/-- Texts with bytes have as many as their parts. -/
theorem pathSize_append {s t : CodeText} (hs : (pathBytes? s).isSome = true)
    (ht : (pathBytes? t).isSome = true) : pathSize (s ++ t) = pathSize s + pathSize t := by
  obtain ⟨a, ha⟩ := Option.isSome_iff_exists.mp hs
  obtain ⟨b, hb⟩ := Option.isSome_iff_exists.mp ht
  rw [pathSize, pathSize, pathSize, pathBytes?_append, ha, hb]
  exact List.length_append

/-- Two texts have bytes if and only if both have. -/
theorem isSome_pathBytes?_append {s t : CodeText} : (pathBytes? (s ++ t)).isSome = true ↔
    (pathBytes? s).isSome = true ∧ (pathBytes? t).isSome = true := by
  rw [pathBytes?_append]
  cases pathBytes? s <;> cases pathBytes? t <;> simp

/-- A path has bytes if its names have. -/
theorem isSome_pathBytes?_joined {names : List CodeText}
    (h : ∀ name ∈ names, (pathBytes? name).isSome = true) :
    (pathBytes? (joined names)).isSome = true := by
  induction names with
  | nil => rfl
  | cons name names ih =>
      obtain ⟨hname, hnames⟩ := List.forall_mem_cons.mp h
      by_cases hnil : names = []
      · subst hnil
        rwa [joined_singleton]
      · rw [joined_cons name hnil, ← List.singleton_append, isSome_pathBytes?_append,
          isSome_pathBytes?_append]
        exact ⟨hname, rfl, ih hnames⟩

/-- A code point with bytes has at least one. -/
theorem CodePoint.length_pathBytes?_pos {c : CodePoint} {bytes : List UInt8}
    (h : c.pathBytes? = some bytes) : 0 < bytes.length := by
  cases c with
  | scalar c =>
      obtain rfl := Option.some.inj h
      unfold Utf8.encodeChar
      dsimp only
      split_ifs <;> exact Nat.succ_pos _
  | leading bits => cases h
  | trailing bits =>
      rw [pathBytes?] at h
      split at h
      · obtain rfl := Option.some.inj h
        exact Nat.one_pos
      · cases h

/-- A text of one code point has bytes if the code point has. -/
theorem CodePoint.exists_pathBytes? {c : CodePoint} (h : (KeyOrder.pathBytes? [c]).isSome = true) :
    ∃ bytes, c.pathBytes? = some bytes := by
  cases hone : c.pathBytes? with
  | none =>
      rw [KeyOrder.pathBytes?, List.mapM_cons, hone] at h
      cases h
  | some bytes => exact ⟨bytes, rfl⟩

/-- A text has bytes if each of its code points has. -/
theorem isSome_pathBytes?_iff {text : CodeText} :
    (pathBytes? text).isSome = true ↔ ∀ c ∈ text, c.pathBytes?.isSome = true := by
  induction text with
  | nil => exact iff_of_true rfl (List.forall_mem_nil _)
  | cons c rest ih =>
      have hone : (pathBytes? [c]).isSome = true ↔ c.pathBytes?.isSome = true := by
        rw [pathBytes?, List.mapM_cons]
        cases c.pathBytes? <;> exact Iff.rfl
      rw [← List.singleton_append, isSome_pathBytes?_append, ih, hone, List.singleton_append,
        List.forall_mem_cons]

/-- A name with bytes is not without them. -/
theorem pathSize_pos {name : CodeText} (hne : name ≠ [])
    (hbytes : (pathBytes? name).isSome = true) : 0 < pathSize name := by
  obtain ⟨c, rest, rfl⟩ := List.exists_cons_of_ne_nil hne
  rw [← List.singleton_append] at hbytes ⊢
  obtain ⟨hc, hrest⟩ := isSome_pathBytes?_append.mp hbytes
  obtain ⟨bytes, hbytes⟩ := CodePoint.exists_pathBytes? hc
  have hone : pathSize [c] = bytes.length := by
    rw [pathSize, pathBytes?, List.mapM_cons, hbytes]
    exact congrArg List.length (List.append_nil bytes)
  have hpos := CodePoint.length_pathBytes?_pos hbytes
  rw [pathSize_append hc hrest]
  omega

/-- Names are the same if they have bytes and these are equal. -/
theorem sameName_iff {a b : CodeText} :
    sameName a b = true ↔ (pathBytes? a).isSome = true ∧ pathBytes? a = pathBytes? b := by
  rw [sameName, Bool.and_eq_true, beq_iff_eq]

/-- The same names have the same bytes. -/
theorem pathBytes?_joined_congr {names names' : List CodeText}
    (h : List.Forall₂ (fun name name' => sameName name name' = true) names names') :
    pathBytes? (joined names) = pathBytes? (joined names') := by
  induction h with
  | nil => rfl
  | @cons name name' names names' hname hrest ih =>
      have hbytes := (sameName_iff.mp hname).2
      by_cases hnil : names = []
      · subst hnil
        obtain rfl := List.forall₂_nil_left_iff.mp hrest
        rwa [joined_singleton, joined_singleton]
      · have hnil' : names' ≠ [] := by
          rintro rfl
          exact hnil (List.forall₂_nil_right_iff.mp hrest)
        rw [joined_cons name hnil, joined_cons name' hnil', pathBytes?_append, pathBytes?_append,
          hbytes, ← List.singleton_append, ← List.singleton_append (l := joined names'),
          pathBytes?_append, pathBytes?_append, ih]

/-! ## What a node holds -/

/-- An entry is found under its name or any other name with the same bytes. -/
theorem entryOf?_eq_some {entries : List (CodeText × Node)} {name : CodeText} {node : Node}
    (h : entryOf? name entries = some node) :
    ∃ name', (name', node) ∈ entries ∧ sameName name name' = true := by
  obtain ⟨entry, hentry, rfl⟩ := Option.map_eq_some_iff.mp h
  have hsame : sameName name entry.1 = true :=
    List.find?_some (p := fun entry : CodeText × Node => sameName name entry.1) hentry
  exact ⟨entry.1, List.mem_of_find?_eq_some hentry, hsame⟩

/-- In a sound directory every entry is found under its name. -/
theorem entryOf?_of_mem {entries : List (CodeText × Node)} {name : CodeText} {node : Node}
    (hnames : ∀ entry ∈ entries, IsEntryName entry.1)
    (hdistinct : entries.Pairwise fun entry other => sameName entry.1 other.1 = false)
    (h : (name, node) ∈ entries) : entryOf? name entries = some node := by
  induction entries with
  | nil => exact absurd h List.not_mem_nil
  | cons entry entries ih =>
      obtain ⟨hentry, hrest⟩ := List.forall_mem_cons.mp hnames
      obtain ⟨hfirst, hdistinct⟩ := List.pairwise_cons.mp hdistinct
      rw [entryOf?, List.find?_cons]
      rcases List.mem_cons.mp h with rfl | h
      · rw [sameName_iff.mpr ⟨hentry.bytes, rfl⟩]
        rfl
      · have hother : sameName name entry.1 = false := by
          refine Bool.eq_false_iff.mpr fun hsame => ?_
          have hbytes := (sameName_iff.mp hsame).2
          have hback := sameName_iff.mpr ⟨hentry.bytes, hbytes.symm⟩
          exact absurd hback (Bool.eq_false_iff.mp (hfirst _ h))
        rw [hother]
        exact ih hrest hdistinct h

/-- A node that is found under names is held under the same names. -/
theorem Node.exists_holds_of_find? {node inner : Node} {names : List CodeText}
    (h : node.find? names = some inner) : ∃ names', node.Holds names' inner ∧
      List.Forall₂ (fun name name' => sameName name name' = true) names names' := by
  induction names generalizing node with
  | nil =>
      obtain rfl := Option.some.inj h
      exact ⟨[], .here _, .nil⟩
  | cons name names ih =>
      cases node with
      | file bytes => cases h
      | directory entries =>
          rw [Node.find?] at h
          split at h
          · next next hnext =>
            obtain ⟨name', hmem, hsame⟩ := entryOf?_eq_some hnext
            obtain ⟨names', hholds, hall⟩ := ih h
            exact ⟨name' :: names', .under hmem hholds, .cons hsame hall⟩
          · cases h

/-- Rows of names are followed one after the other. -/
theorem Node.find?_append (node : Node) (names names' : List CodeText) :
    node.find? (names ++ names') = (node.find? names).bind (·.find? names') := by
  induction names generalizing node with
  | nil => rfl
  | cons name names ih =>
      cases node with
      | file bytes => rfl
      | directory entries =>
          rw [List.cons_append, Node.find?, Node.find?]
          split
          · exact ih _
          · rfl

namespace Node.Holds

variable {node inner : Node} {names names' : List CodeText}

/-- In a sound node what is held is found. -/
theorem find?_eq (h : node.Holds names inner) (hsound : node.IsSound) :
    node.find? names = some inner := by
  induction h with
  | here => rw [Node.find?]
  | under hentry _ ih =>
      cases hsound with
      | directory hnames hdistinct hinner =>
          rw [Node.find?, entryOf?_of_mem hnames hdistinct hentry]
          exact ih (hinner _ hentry)

/-- What a sound node holds is sound. -/
theorem isSound (h : node.Holds names inner) (hsound : node.IsSound) : inner.IsSound := by
  induction h with
  | here => exact hsound
  | under hentry _ ih =>
      cases hsound with
      | directory _ _ hinner => exact ih (hinner _ hentry)

/-- The names under which a sound node holds others can be names. -/
theorem isEntryName (h : node.Holds names inner) (hsound : node.IsSound) :
    ∀ name ∈ names, IsEntryName name := by
  induction h with
  | here => exact List.forall_mem_nil _
  | under hentry _ ih =>
      cases hsound with
      | directory hnames _ hinner =>
          exact List.forall_mem_cons.mpr ⟨hnames _ hentry, ih (hinner _ hentry)⟩

/-- What is held by what a node holds is held by the node. -/
theorem append {last : Node} (h : node.Holds names inner) (h' : inner.Holds names' last) :
    node.Holds (names ++ names') last := by
  induction h with
  | here => exact h'
  | under hentry _ ih => exact .under hentry (ih h')

/-- On the way to a node stands another one under each part of its names. -/
theorem exists_of_append {last : Node} (h : node.Holds (names ++ names') last) :
    ∃ inner, node.Holds names inner ∧ inner.Holds names' last := by
  induction names generalizing node with
  | nil => exact ⟨node, .here node, h⟩
  | cons name names ih =>
      cases h with
      | under hentry h =>
          obtain ⟨inner, hinner, hlast⟩ := ih h
          exact ⟨inner, .under hentry hinner, hlast⟩

/-- What holds something under names is a directory with an entry. -/
theorem exists_entry {name : CodeText} (h : node.Holds (name :: names) inner) :
    ∃ entries next, node = .directory entries ∧ (name, next) ∈ entries ∧
      next.Holds names inner := by
  cases h with
  | under hentry h => exact ⟨_, _, rfl, hentry, h⟩

end Node.Holds

/-! ## Following names -/

/-- A name is followed from a directory only.  A single dot stays there and a double dot goes up;
any other name that is not too long leads to its entry, and the last one may be missing. -/
theorem Node.follow_cons_eq_ok_iff {top : Node} {trail : List (CodeText × Node)} {name : CodeText}
    {names place : List CodeText} : top.follow trail (name :: names) = .ok place ↔
      ∃ entries, (trail.head?.map Prod.snd).getD top = .directory entries ∧
        (name = currentName ∧ top.follow trail names = .ok place ∨
          name = parentName ∧ top.follow trail.tail names = .ok place ∨
          (name ≠ currentName ∧ name ≠ parentName ∧ pathSize name ≤ maxNameBytes) ∧
            ((∃ node, entryOf? name entries = some node ∧
                top.follow ((name, node) :: trail) names = .ok place) ∨
              entryOf? name entries = none ∧ names = [] ∧
                place = trail.reverse.map Prod.fst ++ [name])) := by
  rw [Node.follow]
  constructor
  · intro h
    split at h
    · cases h
    · next entries hentries =>
      refine ⟨entries, hentries, ?_⟩
      split at h
      · next hcurrent => exact Or.inl ⟨hcurrent, h⟩
      · next hcurrent =>
        split at h
        · next hparent => exact Or.inr (Or.inl ⟨hparent, h⟩)
        · next hparent =>
          split at h
          · cases h
          · next hsize =>
            refine Or.inr (Or.inr ⟨⟨hcurrent, hparent, Nat.not_lt.mp hsize⟩, ?_⟩)
            split at h
            · next node hnode => exact Or.inl ⟨node, hnode, h⟩
            · next hnone =>
              split at h
              · next hlast =>
                exact Or.inr ⟨hnone, List.isEmpty_iff.mp hlast, (Except.ok.inj h).symm⟩
              · cases h
  · rintro ⟨entries, hentries, hstep⟩
    rw [hentries]
    dsimp only
    rcases hstep with ⟨rfl, h⟩ | ⟨rfl, h⟩ | ⟨⟨hcurrent, hparent, hsize⟩, hlast⟩
    · rwa [if_pos rfl]
    · rwa [if_neg (by decide), if_pos rfl]
    · rw [if_neg hcurrent, if_neg hparent, if_neg (Nat.not_lt.mpr hsize)]
      rcases hlast with ⟨node, hnode, h⟩ | ⟨hnone, rfl, rfl⟩
      · rwa [hnode]
      · rw [hnone]
        rfl

/-- Names that are no dot names lead, single dots left out, to themselves if they lead anywhere. -/
theorem Node.follow_eq_ok {top : Node} {trail : List (CodeText × Node)}
    {names place : List CodeText} (hparent : parentName ∉ names)
    (h : top.follow trail names = .ok place) :
    place = trail.reverse.map Prod.fst ++ names.filter (· != currentName) := by
  induction names generalizing trail with
  | nil =>
      obtain rfl := Except.ok.inj h
      exact (List.append_nil _).symm
  | cons name names ih =>
      obtain ⟨hname, hnames⟩ := not_or.mp (List.mem_cons.not.mp hparent)
      obtain ⟨entries, -, hstep⟩ := Node.follow_cons_eq_ok_iff.mp h
      rcases hstep with ⟨rfl, hrest⟩ | ⟨rfl, -⟩ | ⟨⟨hcurrent, -, -⟩, hlast⟩
      · rw [List.filter_cons_of_neg (by simp)]
        exact ih hnames hrest
      · exact absurd rfl hname
      · rw [List.filter_cons_of_pos (by simpa using hcurrent)]
        rcases hlast with ⟨node, -, hrest⟩ | ⟨-, rfl, rfl⟩
        · rw [ih hnames hrest, List.reverse_cons, List.map_append, List.append_assoc]
          rfl
        · rfl

/-- Names under which a sound node is found are followed to it. -/
theorem Node.follow_append {top start node : Node} (trail : List (CodeText × Node))
    {names : List CodeText} (hstart : (trail.head?.map Prod.snd).getD top = start)
    (hsound : start.IsSound) (hfind : start.find? names = some node)
    (hdots : ∀ name ∈ names, name ≠ currentName ∧ name ≠ parentName) (more : List CodeText) :
    ∃ trail', trail'.reverse.map Prod.fst = trail.reverse.map Prod.fst ++ names ∧
      (trail'.head?.map Prod.snd).getD top = node ∧
      top.follow trail (names ++ more) = top.follow trail' more := by
  induction names generalizing trail start with
  | nil =>
      obtain rfl := Option.some.inj hfind
      exact ⟨trail, (List.append_nil _).symm, hstart, rfl⟩
  | cons name names ih =>
      obtain ⟨⟨hcurrent, hparent⟩, hdots⟩ := List.forall_mem_cons.mp hdots
      cases hsound with
      | file bytes => cases hfind
      | @directory entries hnames hdistinct hinner =>
          rw [Node.find?] at hfind
          split at hfind
          · next next hnext =>
            obtain ⟨name', hmem, hsame⟩ := entryOf?_eq_some hnext
            have hsize : ¬ maxNameBytes < pathSize name := by
              have hshort := (hnames _ hmem).size
              rw [pathSize, ← (sameName_iff.mp hsame).2] at hshort
              exact Nat.not_lt.mpr hshort
            obtain ⟨trail', htrail, hend, hfollow⟩ :=
              ih ((name, next) :: trail) rfl (hinner (name', next) hmem) hfind hdots
            refine ⟨trail', ?_, hend, ?_⟩
            · rw [htrail, List.reverse_cons, List.map_append, List.append_assoc]
              rfl
            · rw [List.cons_append, Node.follow, hstart]
              dsimp only
              rw [if_neg hcurrent, if_neg hparent, if_neg hsize, hnext]
              exact hfollow
          · cases hfind

end KeyOrder
