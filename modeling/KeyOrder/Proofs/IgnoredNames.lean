import KeyOrder.Proofs.Isolation
import KeyOrder.Proofs.PathsBelow
import KeyOrder.Proofs.PatternRows
/-!
# Names in ignore files

A line of an ignore file that is a plain name stands for what lies below the directories of
that name, wherever they are; a file of that name is not meant by it.  A pattern with special
characters selects nothing that lies below such a directory, and a session writes nothing
there unless it is given the path itself.
-/

namespace KeyOrder

open Glob

/-! ## Directories of a path -/

/-- A text has a name at least. -/
theorem splitSlashes_ne_nil (text : CodeText) : splitSlashes text ≠ [] := by
  fun_cases splitSlashes text <;> simp_all

/-- A text is split at each of its slashes. -/
theorem splitSlashes_append_slash (front rest : CodeText) :
    splitSlashes (front ++ slash :: rest) = splitSlashes front ++ splitSlashes rest := by
  fun_induction splitSlashes front with
  | case1 => rfl
  | case2 front ih => exact congrArg ([] :: ·) ih
  | case3 c front _ hnil _ => exact absurd hnil (splitSlashes_ne_nil front)
  | case4 c front hc name names hnames ih =>
      rw [List.cons_append, splitSlashes, ih, hnames]
      · rfl
      · exact hc

/-- A text is the path of its names. -/
theorem joined_splitSlashes (text : CodeText) : joined (splitSlashes text) = text := by
  fun_induction splitSlashes text with
  | case1 => rfl
  | case2 rest ih =>
      rw [joined_cons [] (splitSlashes_ne_nil rest), ih]
      rfl
  | case3 c rest hc hnil ih => exact absurd hnil (splitSlashes_ne_nil rest)
  | case4 c rest hc name names hnames ih =>
      rw [hnames] at ih
      rw [← ih]
      cases names with
      | nil => simp
      | cons next names => simp [joined_cons]

/-- The names of a path before the last one. -/
def directories (path : CodeText) : List CodeText :=
  (splitSlashes path).dropLast

/-- The directories of a path with a slash in it. -/
theorem directories_append_slash (front rest : CodeText) :
    directories (front ++ slash :: rest) = splitSlashes front ++ directories rest := by
  rw [directories, splitSlashes_append_slash,
    List.dropLast_append_of_ne_nil (splitSlashes_ne_nil rest)]
  rfl

/-- A name stands among the directories of a path if it stands in front of a slash, at the start of
the path or behind another slash. -/
theorem mem_directories_iff {name path : CodeText} (hname : slash ∉ name) :
    name ∈ directories path ↔
      ∃ front ∈ anyDirectories, ∃ rest, path = front ++ (name ++ slash :: rest) := by
  constructor
  · intro h
    obtain ⟨last, hlast⟩ : ∃ last, directories path ++ [last] = splitSlashes path :=
      ⟨_, List.dropLast_append_getLast (splitSlashes_ne_nil path)⟩
    obtain ⟨before, after, hsplit⟩ := List.append_of_mem h
    rw [hsplit, List.append_assoc, List.cons_append] at hlast
    have hafter : after ++ [last] ≠ [] := List.append_ne_nil_of_right_ne_nil after (by simp)
    rw [← joined_splitSlashes path, ← hlast]
    cases before with
    | nil => exact ⟨[], Or.inl rfl, _, joined_cons name hafter⟩
    | cons first before =>
        refine ⟨joined (first :: before) ++ [slash], Or.inr ⟨_, rfl⟩, joined (after ++ [last]), ?_⟩
        rw [joined_append (List.cons_ne_nil _ _) (List.cons_ne_nil _ _), joined_cons name hafter,
          List.append_assoc, List.singleton_append]
  · rintro ⟨front, rfl | ⟨directory, rfl⟩, rest, rfl⟩
    · rw [List.nil_append, directories_append_slash, splitSlashes_of_not_mem hname]
      exact List.mem_cons_self
    · rw [List.append_assoc, List.singleton_append]
      show name ∈ directories (directory ++ slash :: (name ++ slash :: rest))
      rw [directories_append_slash, directories_append_slash, splitSlashes_of_not_mem hname]
      exact List.mem_append_right _ List.mem_cons_self

/-! ## Plain names -/

/-- A name that stands for itself in an ignore file. -/
structure IsPlainName (name : Text) : Prop where
  nonempty : name ≠ []
  noSlash : '/' ∉ name
  special : ∀ c ∈ ['*', '?', '[', ']', '{', '}'], c ∉ name
  comment : name.head? ≠ some '#'
  exception : name.head? ≠ some '!'

/-- The pattern for what lies below the directories of a name. -/
def belowName (name : Text) : CodeText :=
  codeText "**/" ++ CodeText.ofText name ++ belowSuffix

/-- A character of a text is a character of its code points. -/
theorem mem_ofText {c : Char} {text : Text} :
    CodePoint.scalar c ∈ CodeText.ofText text ↔ c ∈ text := by
  simp [CodeText.ofText]

namespace IsPlainName

variable {name : Text} (h : IsPlainName name)

include h

/-- A line that is a plain name is read as the pattern for what lies below it. -/
theorem ignoreGlob?_eq {line : Text} (hline : line.trim = name) :
    ignoreGlob? line = some (belowName name) := by
  have hend : Text.dropEnd name (· == '/') = name := by
    have hkept : name.reverse.dropWhile (· == '/') = name.reverse := by
      rw [List.dropWhile_eq_self_iff]
      intro hlength heq
      refine h.noSlash ?_
      rw [← beq_iff_eq.mp heq, ← List.mem_reverse]
      exact List.getElem_mem hlength
    rw [Text.dropEnd, hkept, List.reverse_reverse]
  obtain ⟨c, rest, rfl⟩ := List.exists_cons_of_ne_nil h.nonempty
  have hcomment : c ≠ '#' := fun heq => h.comment (congrArg some heq)
  have hexception : c ≠ '!' := fun heq => h.exception (congrArg some heq)
  have hslash : c ≠ '/' := fun heq => h.noSlash (heq ▸ List.mem_cons_self)
  unfold ignoreGlob?
  simp only [hline, hend]
  rw [if_neg (by simp [hcomment, hexception])]
  split
  · next hnil => cases hnil
  · next heq => exact absurd (List.cons.inj heq).1 hslash
  · rw [if_neg (by simpa using h.noSlash)]
    rfl

/-- The pattern of a plain name has no groups. -/
theorem brace_not_mem : .scalar '{' ∉ belowName name := by
  have hbrace := mem_ofText.not.mpr (h.special '{' (by decide))
  intro hmem
  rcases List.mem_append.mp hmem with hmem | hmem
  · rcases List.mem_append.mp hmem with hmem | hmem
    · exact absurd hmem (by decide)
    · exact hbrace hmem
  · exact absurd hmem (by decide)

/-- A plain name stands for itself. -/
theorem segmentLanguage_eq :
    segmentLanguage (CodeText.ofText name) = {CodeText.ofText name} := by
  have hstar := h.special '*' (by decide)
  have hmark := h.special '?' (by decide)
  clear h
  induction name with
  | nil => rfl
  | cons c name ih =>
      obtain ⟨hc, hstar⟩ := not_or.mp (List.mem_cons.not.mp hstar)
      obtain ⟨hc', hmark⟩ := not_or.mp (List.mem_cons.not.mp hmark)
      have hread : piecesOf (CodeText.ofText (c :: name))
          = .literal (.scalar c) :: piecesOf (CodeText.ofText name) :=
        piecesOf_literal (fun heq => hc (CodePoint.scalar.inj heq).symm)
          (fun heq => hc' (CodePoint.scalar.inj heq).symm) _
      rw [segmentLanguage, hread, List.map_cons, List.prod_cons]
      exact (congrArg ({[CodePoint.scalar c]} * ·) (ih hstar hmark)).trans
        (Set.image2_singleton)

/-- The pattern of a plain name stands for what lies below a directory of the name. -/
theorem standsFor_belowName_iff {path : CodeText} :
    StandsFor (belowName name) path ↔ CodeText.ofText name ∈ directories path := by
  have hslash : slash ∉ CodeText.ofText name := mem_ofText.not.mpr h.noSlash
  have hread : Pattern.ofText (belowName name)
      = ⟨true, piecesOf (CodeText.ofText name ++ slash :: codeText "**")⟩ := rfl
  have hlanguage : (Pattern.ofText (belowName name)).language
      = anyDirectories * ({CodeText.ofText name} * ({[slash]} * ⊤)) := by
    have htail : segmentLanguage (codeText "**") = ⊤ := segmentLanguage_allName
    rw [Pattern.language, hread, if_pos rfl, piecesOf_append_slash, List.map_append,
      List.prod_append, List.map_cons, List.prod_cons, ← h.segmentLanguage_eq, ← htail]
    rfl
  rw [mem_directories_iff hslash]
  constructor
  · rintro ⟨pattern, hpattern, hmem⟩
    obtain rfl := Pattern.isReading_iff.mp hpattern
    rw [hlanguage] at hmem
    obtain ⟨front, hfront, _, ⟨_, rfl, _, ⟨_, rfl, rest, -, rfl⟩, rfl⟩, rfl⟩ := hmem
    exact ⟨front, hfront, rest, rfl⟩
  · rintro ⟨front, hfront, rest, rfl⟩
    refine ⟨_, Pattern.isReading_iff.mpr rfl, ?_⟩
    rw [hlanguage]
    exact ⟨front, hfront, _, ⟨_, rfl, _, ⟨_, rfl, rest, trivial, rfl⟩, rfl⟩, rfl⟩

/-- The pattern of a plain name ignores what lies below a directory of the name, and nothing
else. -/
theorem isIgnored_belowName [Platform] {path : CodeText} (hpath : .scalar '\n' ∉ path) :
    isIgnored path [belowName name]
      = .ok (decide (CodeText.ofText name ∈ directories path)) := by
  have hown := alternatives_of_not_mem h.brace_not_mem
  -- The directory in front of the last stars is itself a pattern with stars.
  have hbelow : liesBelow path (belowName name) ≠ true := by
    intro hlies
    obtain ⟨directory, heq, hglob, -⟩ := liesBelow_iff.mp hlies
    obtain rfl := List.append_cancel_right heq
    cases hglob
  have hself : path = belowName name → CodeText.ofText name ∈ directories path := by
    rintro rfl
    refine (mem_directories_iff (mem_ofText.not.mpr h.noSlash)).mpr
      ⟨codeText "**/", Or.inr ⟨codeText "**", rfl⟩, codeText "**", ?_⟩
    rw [belowName, List.append_assoc]
    rfl
  have hmatches : matchesPattern path (belowName name)
      = decide (CodeText.ofText name ∈ directories path) := by
    rw [Bool.eq_iff_iff, decide_eq_true_iff, (selects_of_own hown).2, matches_ofText_iff _ hpath,
      h.standsFor_belowName_iff]
    exact or_iff_right_of_imp hself
  rw [isIgnored_eq_any (List.forall_mem_singleton.mpr (selects_of_own hown).1)
    (List.forall_mem_singleton.mpr fun hlies => absurd hlies hbelow), List.any_cons,
    List.any_nil, Bool.or_false, hmatches]

end IsPlainName

/-! ## Rows of patterns -/

/-- A pattern in a row ignores what it ignores alone, unless a pattern before it asks for too many
choices. -/
theorem isIgnored_append_cons [Platform] {path pattern : CodeText}
    (h : isIgnored path [pattern] = .ok true) (before after : List CodeText) :
    isIgnored path (before ++ pattern :: after) = .ok true ∨
      isIgnored path (before ++ pattern :: after) = .error .tooManyChoices ∧
        ∃ earlier ∈ before, alternatives earlier = .error .tooManyChoices := by
  induction before with
  | nil =>
      left
      rw [isIgnored] at h
      rw [List.nil_append, isIgnored]
      split at h
      · cases h
      · split at h
        · next hyes => rw [if_pos hyes]
        · cases h
  | cons first before ih =>
      rw [List.cons_append, isIgnored]
      cases hfirst : selects path first with
      | error fault =>
          unfold selects isDecided at hfirst
          split at hfirst
          · cases hfirst
          · next hundecided =>
            obtain rfl := Except.error.inj hfirst
            refine Or.inr ⟨rfl, first, List.mem_cons_self,
              (alternatives_eq first).trans (if_neg fun hexpandable => ?_)⟩
            exact hundecided (by rw [hexpandable, Bool.or_true])
      | ok selected =>
          dsimp only
          split
          · exact Or.inl rfl
          · rcases ih with ih | ⟨hfault, earlier, hearlier, hmany⟩
            · exact Or.inl ih
            · exact Or.inr ⟨hfault, earlier, List.mem_cons_of_mem first hearlier, hmany⟩

/-! ## Targets -/

section Store

variable {σ : Type} [FileStore σ] {store : σ}

/-- A path that patterns name as it is. -/
def IsNamed [Platform] (patterns : List CodeText) (path : CodeText) : Prop :=
  isGlob path = false ∧ ∃ pattern ∈ patterns, ∃ texts, alternatives pattern = .ok texts ∧
    path ∈ texts

/-- What is found step by step along a list is found for an item of it. -/
theorem exists_of_mem_mapM {ε α β : Type} {f : α → Except ε (List β)} {xs : List α}
    {ys : List (List β)} (h : xs.mapM f = .ok ys) {y : β} (hy : y ∈ ys.flatten) :
    ∃ x ∈ xs, ∃ found, f x = .ok found ∧ y ∈ found := by
  induction xs generalizing ys with
  | nil =>
      obtain rfl := Except.ok.inj h
      cases hy
  | cons x xs ih =>
      rw [List.mapM_cons] at h
      obtain ⟨found, hfound, h⟩ := bind_eq_ok_iff.mp h
      obtain ⟨others, hothers, h⟩ := bind_eq_ok_iff.mp h
      obtain rfl := Except.ok.inj h
      rw [List.flatten_cons, List.mem_append] at hy
      rcases hy with hy | hy
      · exact ⟨x, List.mem_cons_self, found, hfound, hy⟩
      · obtain ⟨x', hx', h'⟩ := ih hothers hy
        exact ⟨x', List.mem_cons_of_mem x hx', h'⟩

/-- A target is a path that the patterns name, or it is not ignored. -/
theorem named_or_unignored_of_mem_targets [Platform] {patterns ignored files : List CodeText}
    {useIgnoreFile : Bool} (h : targets store patterns ignored useIgnoreFile = .ok files)
    {path : CodeText} (hpath : path ∈ files) :
    IsNamed patterns path ∨
      isIgnored path (ignored ++ if useIgnoreFile then storeIgnoreGlobs store else [])
        = .ok false := by
  obtain ⟨found, hfound, rfl⟩ := map_eq_ok_iff.mp h
  rw [mem_sortedSet] at hpath
  obtain ⟨pattern, hpattern, files, hfiles, hpath⟩ := exists_of_mem_mapM hfound hpath
  obtain ⟨texts, htexts, hfiles⟩ := bind_eq_ok_iff.mp hfiles
  obtain ⟨parts, hparts, hfiles⟩ := bind_eq_ok_iff.mp hfiles
  obtain rfl := Except.ok.inj hfiles
  obtain ⟨text, htext, files, hfiles, hpath⟩ := exists_of_mem_mapM hparts hpath
  unfold alternativeTargets at hfiles
  split at hfiles
  · obtain ⟨selected, -, hfiles⟩ := bind_eq_ok_iff.mp hfiles
    exact Or.inr ((mem_of_unignored (mapError_eq_ok_iff.mp hfiles)).2 path |>.mp hpath).2
  · next hglob =>
    have hself : path = text := by
      split at hfiles
      · obtain ⟨there, -, hfiles⟩ := bind_eq_ok_iff.mp hfiles
        obtain rfl := Except.ok.inj hfiles
        split at hpath
        · exact List.mem_singleton.mp hpath
        · cases hpath
      · obtain rfl := Except.ok.inj hfiles
        exact List.mem_singleton.mp hpath
    subst hself
    exact Or.inl ⟨by simpa using hglob, pattern, hpattern, texts,
      mapError_eq_ok_iff.mp htexts, htext⟩

/-! ## Writes -/

/-- A store that comes of another one by writes to paths of a kind. -/
inductive WrittenTo (kind : CodeText → Prop) : σ → σ → Prop
  | refl (store : σ) : WrittenTo kind store store
  | write {store written after : σ} {path : CodeText} {text : Text} (hpath : kind path)
      (hwrite : FileStore.write store path text = .ok written) (h : WrittenTo kind written after) :
      WrittenTo kind store after

/-- A file is written to its path, or not at all. -/
theorem write_of_processFile [Platform] {path : CodeText} {options : ProcessOptions}
    {result : FileResult} {after : σ} (h : processFile store path options = .ok (result, after)) :
    after = store ∨ ∃ text, FileStore.write store path text = .ok after := by
  rcases processFile_cases h with ⟨fault, -, hstore⟩ |
    ⟨content, outcome, -, -, -, ⟨-, hstore⟩ | ⟨text, -, hwrite⟩⟩
  · exact Or.inl hstore
  · exact Or.inl hstore
  · exact Or.inr ⟨text, hwrite⟩

/-- A batch writes to its files only. -/
theorem writtenTo_processFiles [Platform] (config : Config) (options : RunOptions)
    (stop? : FileResult → Option Fault) {kind : CodeText → Prop} (store : σ)
    {files : List CodeText} (hfiles : ∀ path ∈ files, kind path) :
    WrittenTo kind store (processFiles config options stop? store files).store := by
  induction files generalizing store with
  | nil => exact .refl store
  | cons path files ih =>
      obtain ⟨hpath, hfiles⟩ := List.forall_mem_cons.mp hfiles
      rw [processFiles]
      split
      · exact .refl store
      split
      · exact ih store hfiles
      split
      · exact .refl store
      next result after hfile =>
      have hstep : ∀ last, WrittenTo kind after last → WrittenTo kind store last := by
        intro last hlast
        rcases write_of_processFile hfile with rfl | ⟨text, hwrite⟩
        · exact hlast
        · exact .write hpath hwrite hlast
      dsimp only
      split
      · exact hstep after (.refl after)
      · exact hstep _ (ih after hfiles)

/-- The patterns of a session: those that it is given, or those of its configuration. -/
def wantedPatterns (loaded : Option LoadedConfig) (patterns : List CodeText) : List CodeText :=
  if patterns.isEmpty then (usedConfig loaded).included else patterns

/-- A session writes to its targets only. -/
theorem writtenTo_run [Platform] (patterns : List CodeText) (options : RunOptions)
    (reporting : Reporting) {kind : CodeText → Prop}
    (htargets : ∀ loaded files, findConfig store configNames = .ok loaded →
      sessionTargets store (usedConfig loaded) patterns options = .ok files →
      ∀ path ∈ files, kind path) :
    WrittenTo kind store (run store patterns options reporting).store := by
  cases hfound : findConfig store configNames with
  | error fault =>
      rw [(run_of_findConfig_error patterns options reporting hfound).1]
      exact .refl store
  | ok loaded =>
      rw [run_of_findConfig hfound]
      dsimp only
      cases hfiles : sessionTargets store (usedConfig loaded) patterns options with
      | error fault =>
          rw [runWith_of_targets_error hfiles]
          exact .refl store
      | ok files =>
          rw [store_runWith hfiles]
          exact writtenTo_processFiles _ _ _ store (htargets loaded files hfound hfiles)

end Store

/-- A file in memory that is not written holds what it held. -/
theorem WrittenTo.bytes?_eq [Platform] {kind : CodeText → Prop} {store after : MemoryStore}
    (h : WrittenTo kind store after) {path : CodeText} (hpath : ¬ kind path) :
    after.bytes? path = store.bytes? path := by
  induction h with
  | refl => rfl
  | @write store written after changed text hchanged hwrite _ ih =>
      have hrecord : written = store.record (changed, text) := by
        change store.write changed text = .ok written at hwrite
        unfold MemoryStore.write at hwrite
        split at hwrite
        · cases hwrite
        · exact (Except.ok.inj hwrite).symm
      have hne : path ≠ changed := fun heq => hpath (heq ▸ hchanged)
      rw [ih, hrecord, MemoryStore.bytes?_record, if_neg hne]

/-! ## Names in ignore files -/

/-- A line of an ignore file that is a plain name ignores what lies below a directory of that name
and nothing else.  In the whole file it does so too, unless it cannot be told what an earlier
pattern stands for.  What it ignores is a target only if the patterns name it as it is, and no
session writes it otherwise. -/
theorem ignored_below_name [Platform] {text line : Text} (hline : line ∈ text.lines)
    (hname : IsPlainName line.trim) :
    ∃ before glob after, ignoreGlobs text = before ++ glob :: after ∧
      ∀ path, .scalar '\n' ∉ path →
        isIgnored path [glob] = .ok (decide (CodeText.ofText line.trim ∈ directories path)) ∧
        (CodeText.ofText line.trim ∈ directories path →
          (isIgnored path (ignoreGlobs text) = .ok true ∨
            isIgnored path (ignoreGlobs text) = .error .tooManyChoices ∧
              ∃ earlier ∈ before, alternatives earlier = .error .tooManyChoices) ∧
          ∀ {σ : Type} [FileStore σ] (store : σ), FileStore.read store ignoreFileName = .ok text →
            (∀ patterns ignored files, targets store patterns ignored true = .ok files →
              path ∈ files → IsNamed patterns path) ∧
            ∀ patterns options reporting, options.useIgnoreFile = true →
              (∀ loaded, findConfig store configNames = .ok loaded →
                ¬ IsNamed (wantedPatterns loaded patterns) path) →
              WrittenTo (· ≠ path) store (run store patterns options reporting).store) := by
  obtain ⟨linesBefore, linesAfter, hlines⟩ := List.append_of_mem hline
  have hglobs : ignoreGlobs text = linesBefore.filterMap ignoreGlob? ++
      belowName line.trim :: linesAfter.filterMap ignoreGlob? := by
    rw [ignoreGlobs, hlines, List.filterMap_append,
      List.filterMap_cons_some (hname.ignoreGlob?_eq rfl)]
  refine ⟨_, _, _, hglobs, fun path hpath => ⟨hname.isIgnored_belowName hpath, fun hbelow => ?_⟩⟩
  have halone : isIgnored path [belowName line.trim] = .ok true := by
    rw [hname.isIgnored_belowName hpath, decide_eq_true hbelow]
  refine ⟨?_, fun store hread => ?_⟩
  · rw [hglobs]
    exact isIgnored_append_cons halone _ _
  have hstore : storeIgnoreGlobs store = ignoreGlobs text := by
    rw [storeIgnoreGlobs, hread]
  have hnamed : ∀ patterns ignored files, targets store patterns ignored true = .ok files →
      path ∈ files → IsNamed patterns path := by
    intro patterns ignored files htargets hmem
    refine (named_or_unignored_of_mem_targets htargets hmem).resolve_right fun hnot => ?_
    rw [if_pos rfl, hstore, hglobs, ← List.append_assoc] at hnot
    rcases isIgnored_append_cons halone (ignored ++ linesBefore.filterMap ignoreGlob?)
      (linesAfter.filterMap ignoreGlob?) with hyes | ⟨hfault, -⟩
    · rw [hyes] at hnot
      cases hnot
    · rw [hfault] at hnot
      cases hnot
  refine ⟨hnamed, fun patterns options reporting huse hunnamed => ?_⟩
  refine writtenTo_run patterns options reporting ?_
  rintro loaded files hfound htargets other hother rfl
  rw [sessionTargets, huse] at htargets
  exact hunnamed loaded hfound (hnamed _ _ _ htargets hother)

/-- A plain name below which a file is found by a pattern, in a file with other lines. -/
theorem ignored_below_node_modules :
    isIgnored (codeText "web/node_modules/a.json")
        (ignoreGlobs "# logs\n*.tmp\n  node_modules\t\n".toList) = .ok true ∧
      WrittenTo (· ≠ codeText "web/node_modules/a.json")
        (MemoryStore.ofFiles [(ignoreFileName,
          Utf8.encode "# logs\n*.tmp\n  node_modules\t\n".toList),
          (codeText "web/node_modules/a.json", Utf8.encode "\x7b\"b\":1,\"a\":2\x7d".toList)])
        (run (MemoryStore.ofFiles [(ignoreFileName,
          Utf8.encode "# logs\n*.tmp\n  node_modules\t\n".toList),
          (codeText "web/node_modules/a.json", Utf8.encode "\x7b\"b\":1,\"a\":2\x7d".toList)])
          [codeText "**/*.json"] ⟨false, true, false, false, 2, none, [], true⟩
          ⟨true, false, .kept⟩).store := by
  have hname : IsPlainName "node_modules".toList :=
    ⟨by decide, by decide, by simp, by decide, by decide⟩
  have hline : Text.trim "  node_modules\t".toList = "node_modules".toList := by decide +kernel
  obtain ⟨before, glob, after, hglobs, hall⟩ := @ignored_below_name usualPlatform
    "# logs\n*.tmp\n  node_modules\t\n".toList "  node_modules\t".toList
    (by decide +kernel) (hline ▸ hname)
  obtain ⟨-, hbelow⟩ := hall (codeText "web/node_modules/a.json") (by decide)
  obtain ⟨hignored, hstore⟩ := hbelow (by rw [hline]; decide)
  refine ⟨hignored.resolve_right ?_, (hstore _ (MemoryStore.read_of_bytes? rfl)).2 _ _ _ rfl ?_⟩
  · rintro ⟨-, earlier, hearlier, hmany⟩
    have hbraces : ∀ glob ∈ ignoreGlobs "# logs\n*.tmp\n  node_modules\t\n".toList,
        CodePoint.scalar '{' ∉ glob := by decide +kernel
    have hmem := hglobs ▸ List.mem_append_left (glob :: after) hearlier
    rw [alternatives_of_not_mem (hbraces earlier hmem)] at hmany
    cases hmany
  · rintro loaded - ⟨-, pattern, hpattern, texts, htexts, hmem⟩
    obtain rfl := List.mem_singleton.mp hpattern
    rw [alternatives_of_not_mem (by decide)] at htexts
    obtain rfl := Except.ok.inj htexts
    exact absurd hmem (by decide)

/-- A file of a plain name is not ignored. -/
theorem isIgnored_lastName :
    "x.json".toList ∈ Text.lines "x.json\n".toList ∧ IsPlainName (Text.trim "x.json".toList) ∧
      .scalar '\n' ∉ codeText "x.json" ∧
      CodeText.ofText (Text.trim "x.json".toList) ∈ splitSlashes (codeText "x.json") ∧
      isIgnored (codeText "x.json") (ignoreGlobs "x.json\n".toList) = .ok false := by
  have hline : Text.trim "x.json".toList = "x.json".toList := by decide
  have hname : IsPlainName "x.json".toList :=
    ⟨by decide, by decide, by simp, by decide, by decide⟩
  rw [hline]
  refine ⟨by decide, hname, by decide, by decide, ?_⟩
  have hglobs : ignoreGlobs "x.json\n".toList = [belowName "x.json".toList] := by decide
  rw [hglobs, hname.isIgnored_belowName (by decide)]
  exact congrArg Except.ok (by decide)

end KeyOrder
