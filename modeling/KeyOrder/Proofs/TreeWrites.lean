import KeyOrder.Proofs.Octets
import KeyOrder.Proofs.TreePaths
/-!
# Writing in trees

A text that was written to a file of a tree is what the path of the file leads to from then
on.  Putting a file in its place keeps every other node in its place, and directories stay
directories; so the names of the path are followed as before, up and down, to the same place.
Nothing is asked of the tree: its names need not be sound, and the path may go up.
-/

namespace KeyOrder

/-! ## Entries -/

section Entries

variable {entries : List (CodeText × Node)} {name other : CodeText}

/-- The same names have the same entry. -/
theorem entryOf?_congr (h : sameName other name = true) (entries : List (CodeText × Node)) :
    entryOf? other entries = entryOf? name entries := by
  have hname : sameName other = sameName name := by
    funext third
    rw [sameName, sameName, (sameName_iff.mp h).2]
  rw [entryOf?, entryOf?, hname]

/-- The first entry of the name is the one that counts. -/
theorem entryOf?_cons (name : CodeText) (entry : CodeText × Node)
    (entries : List (CodeText × Node)) : entryOf? name (entry :: entries)
      = if sameName name entry.1 then some entry.2 else entryOf? name entries := by
  rw [entryOf?, List.find?_cons]
  cases sameName name entry.1 <;> rfl

/-- An entry that was put is found under its name. -/
theorem entryOf?_putEntry_self (hname : (pathBytes? name).isSome = true) (node : Node)
    (entries : List (CodeText × Node)) :
    entryOf? name (putEntry name node entries) = some node := by
  induction entries with
  | nil => rw [putEntry, entryOf?_cons, if_pos (sameName_iff.mpr ⟨hname, rfl⟩)]
  | cons entry entries ih =>
      rw [putEntry]
      split
      · next hsame => rw [entryOf?_cons, if_pos hsame]
      · next hsame => rw [entryOf?_cons, if_neg hsame, ih]

/-- Putting an entry leaves those of other names as they are. -/
theorem entryOf?_putEntry_of_ne (hother : sameName other name = false) (node : Node)
    (entries : List (CodeText × Node)) :
    entryOf? other (putEntry name node entries) = entryOf? other entries := by
  induction entries with
  | nil => rw [putEntry, entryOf?_cons, hother, if_neg Bool.false_ne_true]
  | cons entry entries ih =>
      rw [putEntry]
      split
      · next hsame =>
        -- An entry of both names would make them one.
        have hne : ¬ sameName other entry.1 = true := by
          intro hentry
          obtain ⟨hbytes, heq⟩ := sameName_iff.mp hentry
          rw [sameName_iff.mpr ⟨hbytes, heq.trans (sameName_iff.mp hsame).2.symm⟩] at hother
          cases hother
        rw [entryOf?_cons, entryOf?_cons, if_neg hne, if_neg hne]
      · rw [entryOf?_cons, entryOf?_cons, ih]

end Entries

/-! ## Nodes that are put -/

namespace Node

/-- A directory finds what its entry of the first name finds. -/
theorem find?_directory (entries : List (CodeText × Node)) (name : CodeText)
    (names : List CodeText) :
    (directory entries).find? (name :: names)
      = (entryOf? name entries).bind fun inner => inner.find? names := by
  rw [find?]
  cases entryOf? name entries <;> rfl

/-- In a directory the entry of the first name is put again. -/
theorem put_directory (entries : List (CodeText × Node)) (name : CodeText)
    (names : List CodeText) (new : Node) : (directory entries).put (name :: names) new
      = directory (putEntry name
          (((entryOf? name entries).getD (directory [])).put names new) entries) := by
  rfl

/-- A node that was put is found in its place. -/
theorem find?_put_self {names : List CodeText} (hnames : ∀ name ∈ names,
    (pathBytes? name).isSome = true) (node new : Node) :
    (node.put names new).find? names = some new := by
  induction names generalizing node with
  | nil => rfl
  | cons name names ih =>
      obtain ⟨hname, hnames⟩ := List.forall_mem_cons.mp hnames
      rw [put, find?_directory, entryOf?_putEntry_self hname]
      exact ih hnames _

/-- Where something is found there still is something after a node was put in a place without a
directory, and a directory is still a directory. -/
theorem exists_find?_put {names place : List CodeText} {node inner : Node} (new : Node)
    (hnone : ∀ entries, node.find? names ≠ some (.directory entries))
    (hinner : node.find? place = some inner) :
    ∃ inner', (node.put names new).find? place = some inner' ∧
      (inner.isFile = false → inner'.isFile = false) := by
  induction names generalizing node place with
  | nil =>
      cases node with
      | directory entries => exact absurd rfl (hnone entries)
      | file bytes =>
          cases place with
          | nil =>
              obtain rfl := Option.some.inj hinner
              exact ⟨new, rfl, fun h => by cases h⟩
          | cons _ _ => cases hinner
  | cons name names ih =>
      cases place with
      | nil => exact ⟨_, rfl, fun _ => rfl⟩
      | cons first place =>
          cases node with
          | file bytes => cases hinner
          | directory entries =>
              rw [find?_directory, Option.bind_eq_some_iff] at hinner
              obtain ⟨next, hnext, hinner⟩ := hinner
              rw [put_directory, find?_directory]
              cases hsame : sameName first name with
              | false =>
                  rw [entryOf?_putEntry_of_ne hsame, hnext]
                  exact ⟨inner, hinner, id⟩
              | true =>
                  obtain ⟨hbytes, heq⟩ := sameName_iff.mp hsame
                  rw [entryOf?_congr hsame] at hnext ⊢
                  rw [entryOf?_putEntry_self (heq ▸ hbytes), hnext]
                  have hnone' : ∀ entries', next.find? names ≠ some (.directory entries') := by
                    intro entries' hfound
                    refine hnone entries' ?_
                    rw [find?_directory, hnext]
                    exact hfound
                  exact ih hnone' hinner

/-! ## Following names -/

/-- Names are followed from a place to another one: a single dot stays in a directory, a double dot
leaves it, any other name goes to what is found under it; the last one may be missing. -/
inductive Follows (top : Node) : List CodeText → List CodeText → List CodeText → Prop
  | done (place : List CodeText) : Follows top place [] place
  | stay {place names target : List CodeText} {entries : List (CodeText × Node)}
      (hplace : top.find? place = some (.directory entries)) (h : Follows top place names target) :
      Follows top place (currentName :: names) target
  | up {place names target : List CodeText} {entries : List (CodeText × Node)}
      (hplace : top.find? place = some (.directory entries))
      (h : Follows top place.dropLast names target) : Follows top place (parentName :: names) target
  | down {place names target : List CodeText} {name : CodeText} {node : Node}
      {entries : List (CodeText × Node)} (hcurrent : name ≠ currentName)
      (hparent : name ≠ parentName) (hsize : pathSize name ≤ maxNameBytes)
      (hplace : top.find? place = some (.directory entries))
      (hnode : top.find? (place ++ [name]) = some node)
      (h : Follows top (place ++ [name]) names target) : Follows top place (name :: names) target
  | last {place : List CodeText} {name : CodeText} {entries : List (CodeText × Node)}
      (hcurrent : name ≠ currentName) (hparent : name ≠ parentName)
      (hsize : pathSize name ≤ maxNameBytes) (hplace : top.find? place = some (.directory entries))
      (hnone : top.find? (place ++ [name]) = none) :
      Follows top place [name] (place ++ [name])

/-- A trail holds what is found under the names that were followed, one after the other. -/
inductive IsTrail (top : Node) : List (CodeText × Node) → Prop
  | nil : IsTrail top []
  | cons {trail : List (CodeText × Node)} {name : CodeText} {node : Node} (h : IsTrail top trail)
      (hnode : top.find? (trail.reverse.map Prod.fst ++ [name]) = some node) :
      IsTrail top ((name, node) :: trail)

/-- At the end of a trail stands what is found in its place. -/
theorem IsTrail.find?_eq {top : Node} {trail : List (CodeText × Node)} (h : IsTrail top trail) :
    top.find? (trail.reverse.map Prod.fst) = some ((trail.head?.map Prod.snd).getD top) := by
  cases h with
  | nil => rfl
  | cons h hnode =>
      rw [List.reverse_cons, List.map_append]
      exact hnode

/-- Without its last name a trail is one. -/
theorem IsTrail.tail {top : Node} {trail : List (CodeText × Node)} (h : IsTrail top trail) :
    IsTrail top trail.tail := by
  cases h with
  | nil => exact .nil
  | cons h _ => exact h

/-- A name behind a place is found in the directory that stands in this place. -/
theorem find?_concat {top : Node} {place : List CodeText} {entries : List (CodeText × Node)}
    (hplace : top.find? place = some (.directory entries)) (name : CodeText) :
    top.find? (place ++ [name]) = entryOf? name entries := by
  rw [find?_append, hplace, Option.bind_some, find?_directory]
  cases entryOf? name entries <;> rfl

/-- Following names along a trail goes from the place where it ends. -/
theorem follow_eq_ok_iff {top : Node} {trail : List (CodeText × Node)} (htrail : IsTrail top trail)
    {names target : List CodeText} : top.follow trail names = .ok target ↔
      Follows top (trail.reverse.map Prod.fst) names target := by
  induction names generalizing trail with
  | nil =>
      constructor
      · intro h
        obtain rfl := Except.ok.inj h
        exact .done _
      · intro h
        cases h
        rfl
  | cons name names ih =>
      have hplace := htrail.find?_eq
      have hup : trail.tail.reverse.map Prod.fst = (trail.reverse.map Prod.fst).dropLast := by
        rw [← List.dropLast_reverse, List.map_dropLast]
      have hdown : ∀ node, ((name, node) :: trail).reverse.map Prod.fst
          = trail.reverse.map Prod.fst ++ [name] := by
        intro node
        rw [List.reverse_cons, List.map_append]
        rfl
      rw [follow_cons_eq_ok_iff]
      constructor
      · rintro ⟨entries, hentries, hstep⟩
        rw [hentries] at hplace
        rcases hstep with ⟨rfl, h⟩ | ⟨rfl, h⟩ | ⟨⟨hcurrent, hparent, hsize⟩, hlast⟩
        · exact .stay hplace ((ih htrail).mp h)
        · exact .up hplace (hup ▸ (ih htrail.tail).mp h)
        · rcases hlast with ⟨node, hnode, h⟩ | ⟨hnone, rfl, rfl⟩
          · have hnode := (find?_concat hplace name).trans hnode
            have hfollows := (ih (htrail.cons hnode)).mp h
            exact .down hcurrent hparent hsize hplace hnode (hdown node ▸ hfollows)
          · exact .last hcurrent hparent hsize hplace ((find?_concat hplace name).trans hnone)
      · intro h
        cases h with
        | stay hdirectory h =>
            exact ⟨_, Option.some.inj (hplace.symm.trans hdirectory),
              Or.inl ⟨rfl, (ih htrail).mpr h⟩⟩
        | up hdirectory h =>
            exact ⟨_, Option.some.inj (hplace.symm.trans hdirectory),
              Or.inr (Or.inl ⟨rfl, (ih htrail.tail).mpr (hup ▸ h)⟩)⟩
        | @down _ _ _ _ node _ hcurrent hparent hsize hdirectory hnode h =>
            refine ⟨_, Option.some.inj (hplace.symm.trans hdirectory),
              Or.inr (Or.inr ⟨⟨hcurrent, hparent, hsize⟩, Or.inl ⟨node, ?_, ?_⟩⟩)⟩
            · exact (find?_concat hdirectory name).symm.trans hnode
            · exact (ih (htrail.cons hnode)).mpr (hdown node ▸ h)
        | last hcurrent hparent hsize hdirectory hnone =>
            refine ⟨_, Option.some.inj (hplace.symm.trans hdirectory),
              Or.inr (Or.inr ⟨⟨hcurrent, hparent, hsize⟩, Or.inr ⟨?_, rfl, rfl⟩⟩)⟩
            exact (find?_concat hdirectory name).symm.trans hnone

/-- Every name of the place was there before or was followed. -/
theorem Follows.mem {top : Node} {place names target : List CodeText}
    (h : Follows top place names target) : ∀ name ∈ target, name ∈ place ∨ name ∈ names := by
  induction h with
  | done place => exact fun name hname => Or.inl hname
  | stay _ _ ih => exact fun name hname => (ih name hname).imp_right (List.mem_cons_of_mem _)
  | up _ _ ih =>
      exact fun name hname =>
        (ih name hname).imp List.mem_of_mem_dropLast (List.mem_cons_of_mem _)
  | @down place names _ name' _ _ _ _ _ _ _ _ ih =>
      intro name hname
      rcases ih name hname with h | h
      · refine (List.mem_append.mp h).imp_right fun h => ?_
        rw [List.mem_singleton.mp h]
        exact List.mem_cons_self
      · exact Or.inr (List.mem_cons_of_mem _ h)
  | last _ _ _ _ _ =>
      intro name hname
      rwa [List.mem_append] at hname

/-- After a node was put in the place that names lead to, they lead to it still. -/
theorem Follows.put {top : Node} {place names target : List CodeText}
    (h : Follows top place names target)
    (hnone : ∀ entries, top.find? target ≠ some (.directory entries))
    (hbytes : ∀ name ∈ target, (pathBytes? name).isSome = true) (new : Node) :
    Follows (top.put target new) place names target := by
  have hkept : ∀ {place entries}, top.find? place = some (.directory entries) →
      ∃ entries', (top.put target new).find? place = some (.directory entries') := by
    intro place entries hplace
    obtain ⟨inner, hinner, hkind⟩ := exists_find?_put new hnone hplace
    cases inner with
    | file bytes => exact absurd (hkind rfl) Bool.true_eq_false.mp
    | directory entries' => exact ⟨entries', hinner⟩
  induction h with
  | done place => exact .done place
  | stay hplace _ ih =>
      obtain ⟨_, hplace⟩ := hkept hplace
      exact .stay hplace (ih hnone hbytes hkept)
  | up hplace _ ih =>
      obtain ⟨_, hplace⟩ := hkept hplace
      exact .up hplace (ih hnone hbytes hkept)
  | down hcurrent hparent hsize hplace hnode _ ih =>
      obtain ⟨_, hplace⟩ := hkept hplace
      obtain ⟨_, hnode, -⟩ := exists_find?_put new hnone hnode
      exact .down hcurrent hparent hsize hplace hnode (ih hnone hbytes hkept)
  | last hcurrent hparent hsize hplace _ =>
      -- The new node is found under the last name now.
      obtain ⟨_, hplace⟩ := hkept hplace
      exact .down hcurrent hparent hsize hplace (find?_put_self hbytes top new) (.done _)

end Node

/-! ## Files that are written -/

/-- The characters of a name are characters of the paths that it stands in. -/
theorem mem_joined_of_mem {names : List CodeText} {name : CodeText} {c : CodePoint}
    (hname : name ∈ names) (hc : c ∈ name) : c ∈ joined names := by
  induction names with
  | nil => exact absurd hname List.not_mem_nil
  | cons first names ih =>
      by_cases hnil : names = []
      · subst hnil
        rwa [joined_singleton, ← List.mem_singleton.mp hname]
      · rw [joined_cons first hnil]
        rcases List.mem_cons.mp hname with rfl | hname
        · exact List.mem_append_left _ hc
        · exact List.mem_append_right _ (List.mem_cons_of_mem _ (ih hname))

/-- The characters of a name of a path are characters of its text. -/
theorem Path.mem_text {path : Path} {name : CodeText} {c : CodePoint} (hname : name ∈ path.names)
    (hc : c ∈ name) : c ∈ path.text := by
  rw [Path.text]
  split
  · next hnames =>
    rw [hnames] at hname
    exact absurd hname List.not_mem_nil
  · exact List.mem_append_right _ (mem_joined_of_mem hname hc)

namespace Tree

variable {tree tree' : Tree} {path : CodeText} {text : Text}

/-- A path that a file can have is the one that its text stands for, and its names have bytes. -/
theorem soundPath_eq_ok {sound : Path} (h : tree.soundPath path = .ok sound) :
    sound = tree.path path ∧ ∀ name ∈ sound.names, (pathBytes? name).isSome = true := by
  rw [soundPath] at h
  split at h
  · cases h
  · next hfault =>
    obtain rfl := Except.ok.inj h
    refine ⟨rfl, fun name hname => isSome_pathBytes?_iff.mpr fun c hc => ?_⟩
    have htext := isSome_pathBytes?_iff.mp (pathFault?_eq_none_iff.mp hfault).1
    exact htext c (Path.mem_text hname hc)

/-- The place of a file that can be written. -/
def filePlace (tree : Tree) (path : Path) : Except Refusal (List CodeText) := do
  let place ← tree.locate path
  match tree.top.find? place with
  | some (.directory _) => .error .isDirectory
  | _ => .ok place

/-- Bytes are put in the place of the file, whatever bytes they are. -/
theorem writeBytes_eq_map (tree : Tree) (path : Path) (bytes : List UInt8) :
    tree.writeBytes path bytes = (tree.filePlace path).map fun place =>
      { tree with top := tree.top.put place (.file bytes) } := by
  rw [writeBytes, filePlace]
  cases tree.locate path with
  | error refusal => rfl
  | ok place =>
      simp only [bind, Except.bind]
      rcases tree.top.find? place with _ | (_ | _) <;> rfl

/-- The names of a path lead to the place of its file, which is no directory. -/
theorem filePlace_eq_ok_iff {path : Path} {place : List CodeText} :
    tree.filePlace path = .ok place ↔ pathSize path.text < pathBytesLimit ∧
      tree.top.Follows [] path.names place ∧
      ∀ entries, tree.top.find? place ≠ some (.directory entries) := by
  have hlocate : ∀ place, tree.locate path = .ok place ↔ pathSize path.text < pathBytesLimit ∧
      tree.top.Follows [] path.names place := by
    intro place
    rw [locate]
    split
    · next hsize => simp [hsize]
    · next hsize => rw [Node.follow_eq_ok_iff .nil, and_iff_right (Nat.not_le.mp hsize)]; rfl
  rw [filePlace, bind_eq_ok_iff, ← and_assoc]
  constructor
  · rintro ⟨place', hplace, h⟩
    split at h
    · cases h
    · next hnone =>
      obtain rfl := Except.ok.inj h
      exact ⟨(hlocate place').mp hplace, hnone⟩
  · rintro ⟨hplace, hnone⟩
    refine ⟨place, (hlocate place).mpr hplace, ?_⟩
    split
    · next entries hfind => exact absurd hfind (hnone entries)
    · rfl

/-- Bytes that are written to a path are what the path leads to. -/
theorem bytes_of_writeBytes {path : Path} {bytes : List UInt8}
    (hnames : ∀ name ∈ path.names, (pathBytes? name).isSome = true)
    (h : tree.writeBytes path bytes = .ok tree') :
    tree'.working = tree.working ∧ tree'.bytes path = .ok bytes := by
  rw [writeBytes_eq_map] at h
  obtain ⟨place, hplace, rfl⟩ := map_eq_ok_iff.mp h
  obtain ⟨hsize, hfollows, hnone⟩ := filePlace_eq_ok_iff.mp hplace
  have hbytes : ∀ name ∈ place, (pathBytes? name).isSome = true := fun name hname =>
    (hfollows.mem name hname).elim (fun h => absurd h List.not_mem_nil) (hnames name)
  have hlocate : locate { tree with top := tree.top.put place (.file bytes) } path = .ok place := by
    rw [locate, if_neg (Nat.not_le.mpr hsize)]
    exact (Node.follow_eq_ok_iff .nil).mpr (hfollows.put hnone hbytes (.file bytes))
  have hnode : node { tree with top := tree.top.put place (.file bytes) } path
      = .ok (.file bytes) := by
    refine bind_eq_ok_iff.mpr ⟨place, hlocate, ?_⟩
    dsimp only
    rw [Node.find?_put_self hbytes]
  exact ⟨rfl, bind_eq_ok_iff.mpr ⟨_, hnode, rfl⟩⟩

/-- A text that is written to a file gives the file the bytes of the text, and is read again with
its line ends unified. -/
theorem read_of_write (h : tree.write path text = .ok tree') :
    tree'.bytes (tree'.path path) = .ok (Utf8.encode text) ∧
      tree'.read path = .ok (unifyLineEnds text) := by
  obtain ⟨sound, hsound, h⟩ := bind_eq_ok_iff.mp h
  obtain ⟨rfl, hnames⟩ := soundPath_eq_ok hsound
  obtain ⟨hworking, hbytes⟩ := bytes_of_writeBytes hnames (mapError_eq_ok_iff.mp h)
  have hpath : tree'.path path = tree.path path := by
    rw [Tree.path, Tree.path, hworking]
  have hsound' : tree'.soundPath path = .ok (tree.path path) := by
    rw [soundPath, hpath]
    exact hsound
  refine ⟨hpath ▸ hbytes, bind_eq_ok_iff.mpr ⟨_, hsound', bind_eq_ok_iff.mpr
    ⟨_, mapError_eq_ok_iff.mpr hbytes, bind_eq_ok_iff.mpr ⟨text, ?_, rfl⟩⟩⟩⟩
  exact mapError_eq_ok_iff.mpr (Utf8.decode_encode text)

/-- What keeps a text from being written to a file keeps any text from it. -/
theorem write_eq_error {fault : FileFault} (h : tree.write path text = .error fault)
    (other : Text) : tree.write path other = .error fault := by
  unfold write at h ⊢
  cases hsound : tree.soundPath path with
  | error e =>
      rw [hsound] at h
      exact h
  | ok sound =>
      rw [hsound] at h
      simp only [bind, Except.bind, writeBytes_eq_map] at h ⊢
      cases hplace : tree.filePlace sound with
      | ok place =>
          rw [hplace] at h
          cases h
      | error refusal =>
          rw [hplace] at h
          exact h

/-- A text that is read from a file is the one that its bytes encode, its line ends unified. -/
theorem read_eq_ok_iff : tree.read path = .ok text ↔ ∃ sound bytes content,
    tree.soundPath path = .ok sound ∧ tree.bytes sound = .ok bytes ∧
      Utf8.decode bytes = .ok content ∧ unifyLineEnds content = text := by
  constructor
  · intro h
    obtain ⟨sound, hsound, h⟩ := bind_eq_ok_iff.mp h
    obtain ⟨bytes, hbytes, h⟩ := bind_eq_ok_iff.mp h
    obtain ⟨content, hcontent, h⟩ := bind_eq_ok_iff.mp h
    exact ⟨sound, bytes, content, hsound, mapError_eq_ok_iff.mp hbytes,
      mapError_eq_ok_iff.mp hcontent, Except.ok.inj h⟩
  · rintro ⟨sound, bytes, content, hsound, hbytes, hcontent, rfl⟩
    exact bind_eq_ok_iff.mpr ⟨sound, hsound, bind_eq_ok_iff.mpr ⟨bytes,
      mapError_eq_ok_iff.mpr hbytes, bind_eq_ok_iff.mpr ⟨content,
        mapError_eq_ok_iff.mpr hcontent, rfl⟩⟩⟩

end Tree

end KeyOrder
