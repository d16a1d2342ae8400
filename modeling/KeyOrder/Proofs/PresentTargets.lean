import KeyOrder.Proofs.BraceTexts
import KeyOrder.Proofs.TargetUnions
import KeyOrder.Proofs.Searches
/-!
# Plain targets that are there

There is something under every path that a search finds.  A pattern that denotes different
texts takes a plain path only if there is something under it.  But if all the texts that it
denotes are one plain path, the copies go away, nothing tells the pattern from the path alone,
and the path is the target whether there is something under it or not.
-/

namespace KeyOrder

/-! ## Normalised paths -/

/-- No part of a text that is split at its slashes has one. -/
theorem slash_not_mem_of_mem_splitSlashes {text name : CodeText} (h : name ∈ splitSlashes text) :
    slash ∉ name := by
  fun_induction splitSlashes text generalizing name with
  | case1 =>
      rw [List.mem_singleton.mp h]
      exact List.not_mem_nil
  | case2 rest ih =>
      rcases List.mem_cons.mp h with rfl | h
      · exact List.not_mem_nil
      · exact ih h
  | case3 c rest hc hnil ih => exact absurd hnil (splitSlashes_ne_nil rest)
  | case4 c rest hc first names hsplit ih =>
      rcases List.mem_cons.mp h with rfl | h
      · have hfirst : slash ∉ first := ih (hsplit ▸ List.mem_cons_self)
        exact List.not_mem_cons_of_ne_of_not_mem (fun heq => hc heq.symm) hfirst
      · exact ih (hsplit ▸ List.mem_cons_of_mem _ h)

/-- The names of a normalised path are those that normalising leaves. -/
theorem Path.mem_names_ofText {text name : CodeText} (h : name ∈ (Path.ofText text).names) :
    (name ≠ [] ∧ slash ∉ name) ∧ name ≠ currentName := by
  obtain ⟨hmem, hkept⟩ := List.mem_filter.mp h
  have hkept : name ≠ [] ∧ name ≠ currentName := by simpa using hkept
  exact ⟨⟨hkept.1, slash_not_mem_of_mem_splitSlashes hmem⟩, hkept.2⟩

/-- A normalised path starts with nothing, one slash or two. -/
theorem leadingRoot_cases (text : CodeText) :
    leadingRoot text = [] ∨ leadingRoot text = [slash] ∨ leadingRoot text = [slash, slash] := by
  rw [leadingRoot]
  split <;> simp

/-- The slashes in front of a path are its root. -/
theorem leadingRoot_append {root text : CodeText}
    (hroot : root = [] ∨ root = [slash] ∨ root = [slash, slash]) (htext : text.head? ≠ some slash) :
    leadingRoot (root ++ text) = root := by
  have hnone : text.takeWhile (· == slash) = [] := by
    cases text with
    | nil => rfl
    | cons c rest =>
        refine List.takeWhile_cons_of_neg fun hc => htext ?_
        rw [List.head?_cons, beq_iff_eq.mp hc]
  rcases hroot with rfl | rfl | rfl
  · rw [leadingRoot, List.nil_append, hnone]
    rfl
  · rw [leadingRoot, List.singleton_append, List.takeWhile_cons_of_pos (by simp), hnone]
    rfl
  · rw [leadingRoot, List.cons_append, List.takeWhile_cons_of_pos (by simp), List.singleton_append,
      List.takeWhile_cons_of_pos (by simp), hnone]
    rfl

/-- The root of a path is left out where its text is split into names. -/
theorem filter_splitSlashes_append {root text : CodeText}
    (hroot : root = [] ∨ root = [slash] ∨ root = [slash, slash]) :
    (splitSlashes (root ++ text)).filter (fun name => name != [] && name != currentName)
      = (splitSlashes text).filter fun name => name != [] && name != currentName := by
  rcases hroot with rfl | rfl | rfl
  · rfl
  · rfl
  · rfl

/-- A normalised path stays as it is. -/
theorem Path.ofText_text (text : CodeText) :
    Path.ofText (Path.ofText text).text = Path.ofText text := by
  have hnames : ∀ name ∈ (Path.ofText text).names,
      (name ≠ [] ∧ slash ∉ name) ∧ name ≠ currentName := fun _ => Path.mem_names_ofText
  have hroot : (Path.ofText text).root = [] ∨ (Path.ofText text).root = [slash] ∨
      (Path.ofText text).root = [slash, slash] := leadingRoot_cases text
  generalize Path.ofText text = path at hnames hroot
  obtain ⟨root, names⟩ := path
  dsimp only at hnames hroot
  by_cases hempty : root = [] ∧ names = []
  · obtain ⟨rfl, rfl⟩ := hempty
    rfl
  have htext : Path.text ⟨root, names⟩ = root ++ joined names := by
    rw [Path.text]
    split
    · next hr hn => exact absurd ⟨hr, hn⟩ hempty
    · rfl
  have hhead := head?_joined_ne_slash fun name hname => (hnames name hname).1
  rw [htext, Path.ofText, leadingRoot_append hroot hhead, filter_splitSlashes_append hroot]
  refine congrArg (Path.mk root) ?_
  by_cases hnil : names = []
  · subst hnil
    rfl
  · rw [splitSlashes_joined hnil fun name hname => (hnames name hname).1.2]
    refine List.filter_eq_self.mpr fun name hname => ?_
    simpa using ⟨(hnames name hname).1.1, (hnames name hname).2⟩

/-! ## What is found is there -/

/-- Stores in which there is something under each path that a search finds. -/
class FindsPresent (σ : Type) [FileStore σ] : Prop where
  isThere_of_mem_glob {store : σ} {pattern path : CodeText} {found : List CodeText}
    (h : FileStore.glob store pattern = .ok found) (hpath : path ∈ found) :
    FileStore.isThere store path = .ok true

/-- A pattern selects from the paths of a table. -/
instance [Platform] : FindsPresent MemoryStore where
  isThere_of_mem_glob {store pattern path found} h hpath := by
    change store.glob pattern = .ok found at h
    rw [MemoryStore.glob] at h
    split at h
    · obtain rfl := Except.ok.inj h
      have hfile := MemoryStore.mem_map_fst_files_iff.mp (List.mem_filter.mp hpath).1
      exact congrArg Except.ok hfile
    · cases h

/-- A text that leads to a node of a kind still does when it is normalised. -/
theorem Tree.test_ofText_text {tree : Tree} {text : CodeText} {kind : Node → Bool} :
    tree.test (Path.ofText text).text kind = tree.test text kind := by
  rw [Tree.test, Tree.test, Tree.soundPath, Tree.soundPath, Tree.path, Tree.path, Path.ofText_text]

/-- A path that leads to a node of some kind leads to a node. -/
theorem Tree.test_true_of_test {tree : Tree} {text : CodeText} {kind : Node → Bool}
    (h : tree.test text kind = .ok true) : tree.test text (fun _ => true) = .ok true := by
  unfold Tree.test at h ⊢
  split at h
  · cases h
  · split at h
    · rfl
    · cases h
    · cases h

/-- A search in a tree keeps the paths that lead to files. -/
instance [Platform] : FindsPresent Tree where
  isThere_of_mem_glob {tree pattern path found} h hpath := by
    change tree.glob pattern = .ok found at h
    rw [Tree.glob] at h
    split at h
    · cases h
    · obtain ⟨text, -, htest, rfl⟩ := (Tree.mem_of_keepFiles h).mp hpath
      exact Tree.test_ofText_text.trans (Tree.test_true_of_test htest)

/-! ## Groups of plain options -/

namespace Glob

/-- A text without opening braces denotes itself. -/
theorem denotes_self {text : CodeText} (h : .scalar '{' ∉ text) : Denotes text [text] := by
  obtain ⟨texts, htexts⟩ := exists_denotes text
  rwa [htexts.eq_of_none (firstChoice?_of_not_mem h)] at htexts

/-- A text that has neither braces nor commas. -/
structure IsUngrouped (text : CodeText) : Prop where
  opening : .scalar '{' ∉ text
  closing : .scalar '}' ∉ text
  comma : .scalar ',' ∉ text

/-- It can be decided whether a text has braces or commas. -/
instance (text : CodeText) : Decidable (IsUngrouped text) :=
  decidable_of_iff (.scalar '{' ∉ text ∧ .scalar '}' ∉ text ∧ .scalar ',' ∉ text)
    ⟨fun h => ⟨h.1, h.2.1, h.2.2⟩, fun h => ⟨h.opening, h.closing, h.comma⟩⟩

/-- A text without braces and commas is an option. -/
theorem IsUngrouped.isOption {text : CodeText} (h : IsUngrouped text) : IsOption text := by
  obtain ⟨hopen, hclose, hcomma⟩ := h
  induction text with
  | nil => exact .nil
  | cons c text ih =>
      rw [List.mem_cons, not_or] at hopen hclose hcomma
      exact .plain (Ne.symm hopen.1) (Ne.symm hclose.1) (Ne.symm hcomma.1)
        (ih hopen.2 hclose.2 hcomma.2)

section Options

variable {options : List CodeText} {rest : CodeText} (htwo : 2 ≤ options.length)
  (hoptions : ∀ option ∈ options, IsUngrouped option) (hrest : IsUngrouped rest)

include htwo hoptions hrest

/-- A group of such texts denotes each of them with what follows the group. -/
theorem denotes_options :
    Denotes (.scalar '{' :: (withCommas options ++ .scalar '}' :: rest))
      (options.map (· ++ rest)) := by
  have hchoice := Denotes.choice htwo (fun option hoption => (hoptions option hoption).isOption)
    (fun option hoption => denotes_self (hoptions option hoption).opening)
    (denotes_self hrest.opening)
  simpa [pairings, List.map_eq_flatMap] using hchoice

/-- A group of such texts asks for one choice. -/
theorem isExpandable_options [Platform] (hbound : 1 ≤ Platform.maxChoices) :
    isExpandable (.scalar '{' :: (withCommas options ++ .scalar '}' :: rest)) = true := by
  have hzero : ∀ option ∈ options, choicesIn option = 0 := fun option hoption =>
    choicesIn_of_none (firstChoice?_of_not_mem (hoptions option hoption).opening)
  rw [isExpandable,
    choicesIn_choice htwo fun option hoption => (hoptions option hoption).isOption,
    choicesIn_of_none (firstChoice?_of_not_mem hrest.opening), List.map_congr_left hzero,
    List.foldl_map]
  simpa using hbound

end Options

end Glob

/-! ## Copies -/

/-- A list with two different items has more than one item. -/
theorem one_lt_length_of_mem {α : Type} {items : List α} {first second : α} (hfirst : first ∈ items)
    (hsecond : second ∈ items) (hne : first ≠ second) : 1 < items.length := by
  match items, hfirst, hsecond with
  | [item], hfirst, hsecond =>
      exact absurd ((List.mem_singleton.mp hfirst).trans (List.mem_singleton.mp hsecond).symm) hne
  | _ :: _ :: _, _, _ =>
      rw [List.length_cons, List.length_cons]
      omega

/-- Copies of one text are one text without copies. -/
theorem eraseDups_of_forall_eq {texts : List CodeText} {path : CodeText} (hne : texts ≠ [])
    (h : ∀ text ∈ texts, text = path) : texts.eraseDups = [path] := by
  obtain ⟨text, rest, rfl⟩ := List.exists_cons_of_ne_nil hne
  obtain ⟨rfl, hrest⟩ := List.forall_mem_cons.mp h
  have hnone : (rest.filter fun other => !other == text) = [] := by
    refine List.filter_eq_nil_iff.mpr fun other hother => ?_
    simp [hrest other hother]
  rw [List.eraseDups_cons, hnone]
  rfl

/-! ## Plain targets -/

/-- There is something under each path that an alternative supplies, if a plain one is not the only
one. -/
theorem Supplies.isThere [Platform] {σ : Type} [FileStore σ] [FindsPresent σ] {store : σ}
    {ignored : List CodeText} {several : Prop} {alternative path : CodeText}
    (h : Supplies store ignored several alternative path)
    (hseveral : Glob.isGlob alternative = false → several) :
    FileStore.isThere store path = .ok true := by
  cases h with
  | plain hplain hthere => exact hthere (hseveral hplain)
  | found _ hfound hpath _ => exact FindsPresent.isThere_of_mem_glob hfound hpath

/-- The target of a pattern that denotes copies of one plain path is this path, and nothing is asked
of the store. -/
theorem targets_of_forall_eq [Platform] {σ : Type} [FileStore σ] (store : σ)
    {pattern path : CodeText} {texts : List CodeText} (hdenotes : Glob.Denotes pattern texts)
    (hone : ∀ text ∈ texts, text = path) (hplain : Glob.isGlob path = false)
    (hexpandable : Glob.isExpandable pattern = true) (ignored : List CodeText)
    (useIgnoreFile : Bool) : targets store [pattern] ignored useIgnoreFile = .ok [path] := by
  have hexpand : Glob.expandBraces pattern = [path] :=
    hdenotes.expandBraces_eq.trans (eraseDups_of_forall_eq hdenotes.ne_nil hone)
  have htargets : patternTargets store (leavingOut store ignored useIgnoreFile) pattern
      = .ok [path] := by
    refine patternTargets_eq_ok_iff.mpr ⟨hexpandable, [[path]], ?_, rfl⟩
    rw [hexpand, List.mapM_cons, alternativeTargets, hplain]
    rfl
  refine targets_of_mapM [[path]] ?_ (List.pairwise_singleton _ _) (List.Subset.refl _)
    (List.Subset.refl _)
  rw [List.mapM_cons, htargets]
  rfl

/-- There is something under every target of a pattern, unless all the texts that the pattern
denotes are one plain path.  In that case this path is the target, whether there is something under
it or not. -/
theorem isThere_of_mem_targets [Platform] {σ : Type} [FileStore σ] [FindsPresent σ] (store : σ)
    {pattern : CodeText} {texts : List CodeText} (hdenotes : Glob.Denotes pattern texts)
    (ignored : List CodeText) (useIgnoreFile : Bool) :
    ((∀ path, (∀ text ∈ texts, text = path) → Glob.isGlob path = true) →
      ∀ files, targets store [pattern] ignored useIgnoreFile = .ok files →
        ∀ path ∈ files, FileStore.isThere store path = .ok true) ∧
    ∀ path, (∀ text ∈ texts, text = path) → Glob.isGlob path = false →
      Glob.isExpandable pattern = true →
        targets store [pattern] ignored useIgnoreFile = .ok [path] := by
  refine ⟨fun hmany files h path hpath => ?_, fun path hone hplain hexpandable =>
    targets_of_forall_eq store hdenotes hone hplain hexpandable ignored useIgnoreFile⟩
  obtain ⟨_, hpattern, alternative, halternative, hsupplies⟩ := (mem_targets_iff h).mp hpath
  obtain rfl := List.mem_singleton.mp hpattern
  refine hsupplies.isThere fun hplain => ?_
  -- A plain alternative is not the only one.
  obtain ⟨other, hother, hne⟩ : ∃ other ∈ texts, other ≠ alternative := by
    by_contra hnone
    have hall : ∀ text ∈ texts, text = alternative := fun text htext =>
      not_not.mp fun hne => hnone ⟨text, htext, hne⟩
    rw [hmany alternative hall] at hplain
    cases hplain
  rw [hdenotes.expandBraces_eq] at halternative ⊢
  exact one_lt_length_of_mem (List.mem_eraseDups.mpr hother) halternative hne

/-- Of two alternatives the one that is there is the target. -/
theorem targets_twoAlternatives :
    targets vendorStore [codeText "\x7ba,gone\x7d.json"] [] true = .ok [codeText "a.json"] ∧
      FileStore.isThere vendorStore (codeText "a.json") = .ok true := by
  have hoptions : ∀ option ∈ [codeText "a", codeText "gone"], Glob.IsUngrouped option := by decide
  have hrest : Glob.IsUngrouped (codeText ".json") := by decide
  have hdenotes : Glob.Denotes (codeText "\x7ba,gone\x7d.json")
      [codeText "a.json", codeText "gone.json"] := Glob.denotes_options le_rfl hoptions hrest
  have hexpandable : Glob.isExpandable (codeText "\x7ba,gone\x7d.json") = true :=
    Glob.isExpandable_options le_rfl hoptions hrest (by decide)
  have hparts : (Glob.expandBraces (codeText "\x7ba,gone\x7d.json")).mapM
      (alternativeTargets vendorStore (leavingOut vendorStore [] true)
        (1 < (Glob.expandBraces (codeText "\x7ba,gone\x7d.json")).length))
      = .ok [[codeText "a.json"], []] := by
    rw [hdenotes.expandBraces_eq]
    decide +kernel
  have hpattern : patternTargets vendorStore (leavingOut vendorStore [] true)
      (codeText "\x7ba,gone\x7d.json") = .ok [codeText "a.json"] :=
    patternTargets_eq_ok_iff.mpr ⟨hexpandable, _, hparts, rfl⟩
  have htargets : targets vendorStore [codeText "\x7ba,gone\x7d.json"] [] true
      = .ok [codeText "a.json"] := by
    refine targets_of_mapM [[codeText "a.json"]] ?_ (by decide) (by decide) (by decide)
    rw [List.mapM_cons, hpattern]
    rfl
  refine ⟨htargets, ?_⟩
  refine (isThere_of_mem_targets vendorStore hdenotes [] true).1 (fun path hone => ?_) _ htargets _
    List.mem_cons_self
  -- The two texts differ, so they are no copies of one.
  have hsame := (hone (codeText "a.json") (by decide)).trans
    (hone (codeText "gone.json") (by decide)).symm
  exact absurd hsame (by decide)

/-- Two copies of one alternative are a target although nothing is there. -/
theorem targets_copies :
    Glob.expandBraces (codeText "\x7ba,a\x7d.json") ≠ [codeText "\x7ba,a\x7d.json"] ∧
      targets (MemoryStore.ofFiles []) [codeText "\x7ba,a\x7d.json"] [] true
        = .ok [codeText "a.json"] ∧
      Glob.isGlob (codeText "a.json") = false ∧
      FileStore.isThere (MemoryStore.ofFiles []) (codeText "a.json") = .ok false := by
  have hoptions : ∀ option ∈ [codeText "a", codeText "a"], Glob.IsUngrouped option := by decide
  have hrest : Glob.IsUngrouped (codeText ".json") := by decide
  have hdenotes : Glob.Denotes (codeText "\x7ba,a\x7d.json")
      [codeText "a.json", codeText "a.json"] := Glob.denotes_options le_rfl hoptions hrest
  refine ⟨?_, ?_, rfl, rfl⟩
  · rw [hdenotes.expandBraces_eq]
    decide
  · exact targets_of_forall_eq _ hdenotes (by decide) rfl
      (Glob.isExpandable_options le_rfl hoptions hrest (by decide)) [] true

end KeyOrder
