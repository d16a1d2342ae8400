import KeyOrder.Proofs.Searches
/-!
# What is found and what is selected

Two stars at the start of a pattern may take no names, be it searched for or be it a pattern that
selects.  Later in the pattern they take at least one name if it selects and may take none if it is
searched for.  So a file is found exactly if it is selected by the pattern with some of these stars
left out.  Where stars at the end take nothing, the search asks for a directory before them, unless
it only looks up a plain name; so those are left out only behind a plain name, and not even there
where directories are tested for.
-/

namespace KeyOrder

open Glob (IsSegment Takes Deals)

/-! ## Leaving out stars -/

/-- Some names that are just two stars are left out of a row of names of a pattern. -/
inductive Thinned : List CodeText → List CodeText → Prop
  | nil : Thinned [] []
  | keep (segment : CodeText) {segments kept : List CodeText} (h : Thinned segments kept) :
      Thinned (segment :: segments) (segment :: kept)
  | leave {segments kept : List CodeText} (h : Thinned segments kept) :
      Thinned (allName :: segments) kept

/-- What is kept of a pattern behind its first name: stars may be left out, but all that stand at
the end only if the name that becomes the last one is plain and directories are not tested for. -/
structure IsThinned [Platform] (first : CodeText) (rest kept : List CodeText) : Prop where
  thinned : Thinned rest kept
  ending : rest.getLast? = some allName →
    ∀ last ∈ (first :: kept).getLast?,
      last = allName ∨ Platform.testsDirectories = false ∧ hasMagic last = false

namespace Thinned

/-- Nothing has to be left out. -/
theorem refl (segments : List CodeText) : Thinned segments segments := by
  induction segments with
  | nil => exact .nil
  | cons segment segments ih => exact .keep segment ih

/-- What is kept stands in the row in the same order. -/
theorem sublist {segments kept : List CodeText} (h : Thinned segments kept) :
    kept.Sublist segments := by
  induction h with
  | nil => exact .slnil
  | keep segment _ ih => exact ih.cons_cons segment
  | leave _ ih => exact ih.cons allName

/-- Where no name is two stars, nothing can be left out. -/
theorem eq_of_not_mem {segments kept : List CodeText} (h : Thinned segments kept)
    (hnone : allName ∉ segments) : kept = segments := by
  induction h with
  | nil => rfl
  | keep segment _ ih => rw [ih fun hmem => hnone (List.mem_cons_of_mem segment hmem)]
  | leave _ _ => exact absurd List.mem_cons_self hnone

/-- Stars are left out of each of two rows. -/
theorem append {segments segments' kept kept' : List CodeText} (h : Thinned segments kept)
    (h' : Thinned segments' kept') : Thinned (segments ++ segments') (kept ++ kept') := by
  induction h with
  | nil => exact h'
  | keep segment _ ih => exact .keep segment ih
  | leave _ ih => exact .leave ih

/-- The last name of a row is kept, or it is two stars and left out. -/
theorem concat_iff {segments kept : List CodeText} {segment : CodeText} :
    Thinned (segments ++ [segment]) kept ↔
      (∃ before, Thinned segments before ∧ before ++ [segment] = kept) ∨
      segment = allName ∧ Thinned segments kept := by
  constructor
  · intro h
    induction segments generalizing kept with
    | nil =>
        cases h with
        | keep _ h =>
            cases h
            exact Or.inl ⟨[], .nil, rfl⟩
        | leave h => exact Or.inr ⟨rfl, h⟩
    | cons first segments ih =>
        cases h with
        | keep _ h =>
            rcases ih h with ⟨before, hbefore, rfl⟩ | ⟨rfl, hkept⟩
            · exact Or.inl ⟨first :: before, .keep first hbefore, rfl⟩
            · exact Or.inr ⟨rfl, .keep first hkept⟩
        | leave h =>
            rcases ih h with ⟨before, hbefore, rfl⟩ | ⟨rfl, hkept⟩
            · exact Or.inl ⟨before, .leave hbefore, rfl⟩
            · exact Or.inr ⟨rfl, .leave hkept⟩
  · rintro (⟨before, hbefore, rfl⟩ | ⟨rfl, h⟩)
    · exact hbefore.append (refl [segment])
    · have hleft := h.append (leave nil)
      rwa [List.append_nil] at hleft

/-- Names that are dealt out to what is kept are dealt out to the whole row. -/
theorem row {segments kept names : List CodeText} (h : Thinned segments kept)
    (hrow : Row kept names) : Row segments names := by
  induction h generalizing names with
  | nil => exact hrow
  | keep segment _ ih =>
      obtain ⟨part, rest, htakes, hrest, rfl⟩ := row_cons_iff.mp hrow
      exact row_cons_iff.mpr ⟨part, rest, htakes, ih hrest, rfl⟩
  | leave _ ih => exact row_cons_iff.mpr ⟨[], names, Or.inl rfl, ih hrow, rfl⟩

end Thinned

/-! ## Dealing out names -/

/-- The last item of a row is related to the last item of the other. -/
theorem forall₂_concat_left_iff {α β : Type} {R : α → β → Prop} {items : List α} {item : α}
    {others : List β} : List.Forall₂ R (items ++ [item]) others ↔
      ∃ before last, List.Forall₂ R items before ∧ R item last ∧ before ++ [last] = others := by
  constructor
  · intro h
    have hreverse := List.rel_reverse h
    rw [List.reverse_append, List.reverse_singleton, List.singleton_append,
      List.forall₂_cons_left_iff] at hreverse
    obtain ⟨last, before, hlast, hbefore, heq⟩ := hreverse
    refine ⟨before.reverse, last, ?_, hlast, ?_⟩
    · rwa [← List.forall₂_reverse_iff, List.reverse_reverse]
    · rw [← List.reverse_cons, ← heq, List.reverse_reverse]
  · rintro ⟨before, last, hbefore, hlast, rfl⟩
    exact List.rel_append hbefore (.cons hlast .nil)

section Deals

variable {first segment : CodeText} {rest names : List CodeText}

/-- A pattern of one name takes all names. -/
theorem deals_nil_iff : Deals first [] names ↔ Takes first names := by
  constructor
  · rintro ⟨part, parts, htakes, hparts, -, rfl⟩
    rwa [List.forall₂_nil_left_iff.mp hparts, List.flatten_nil, List.append_nil]
  · intro htakes
    exact ⟨names, [], htakes, .nil, List.forall_mem_nil _, List.append_nil names⟩

/-- The last name of a pattern takes the last part, which is not empty. -/
theorem deals_concat_iff : Deals first (rest ++ [segment]) names ↔ ∃ before part,
    Deals first rest before ∧ Takes segment part ∧ before ++ part = names ∧ part ≠ [] := by
  constructor
  · rintro ⟨part, _, htakes, hall, hfull, rfl⟩
    obtain ⟨parts, last, hparts, hsegment, rfl⟩ := forall₂_concat_left_iff.mp hall
    obtain ⟨hfull, hne⟩ := List.forall_mem_append.mp hfull
    refine ⟨part ++ parts.flatten, last, ⟨part, parts, htakes, hparts, hfull, rfl⟩, hsegment, ?_,
      hne last List.mem_cons_self⟩
    rw [List.flatten_append, List.flatten_singleton, List.append_assoc]
  · rintro ⟨_, last, ⟨part, parts, htakes, hparts, hfull, rfl⟩, hsegment, rfl, hne⟩
    refine ⟨part, parts ++ [last], htakes,
      forall₂_concat_left_iff.mpr ⟨parts, last, hparts, hsegment, rfl⟩,
      List.forall_mem_append.mpr ⟨hfull, List.forall_mem_singleton.mpr hne⟩, ?_⟩
    rw [List.flatten_append, List.flatten_singleton, List.append_assoc]

/-- Names that are dealt out to a pattern are dealt out to its row of names. -/
theorem Glob.Deals.row (h : Deals first rest names) : Row (first :: rest) names := by
  obtain ⟨part, parts, htakes, hparts, -, rfl⟩ := h
  exact ⟨part :: parts, .cons htakes hparts, rfl⟩

/-- Two stars at the end of a pattern take a part that is not empty; without it the names are still
dealt out to the row. -/
theorem Glob.Deals.exists_last (h : Deals first rest names) (hne : names ≠ [])
    (hlast : (first :: rest).getLast? = some allName) :
    ∃ before part, Row (first :: rest) before ∧ part ≠ [] ∧ before ++ part = names := by
  induction rest using List.reverseRecOn with
  | nil =>
      obtain rfl := Option.some.inj hlast
      exact ⟨[], names, row_cons_iff.mpr ⟨[], [], Or.inl rfl, row_nil_iff.mpr rfl, rfl⟩, hne, rfl⟩
  | append_singleton rest segment _ =>
      rw [← List.cons_append, List.getLast?_concat] at hlast
      obtain rfl := Option.some.inj hlast
      obtain ⟨before, part, hfront, -, rfl, hpart⟩ := deals_concat_iff.mp h
      refine ⟨before, part, ?_, hpart, rfl⟩
      rw [← List.cons_append]
      exact row_concat_iff.mpr ⟨before, [], hfront.row, Or.inl rfl, List.append_nil before⟩

/-- Names that are dealt out to a row are dealt out to the pattern without the stars that take
none. -/
theorem Row.exists_thinned (h : Row (first :: rest) names) :
    ∃ kept, Thinned rest kept ∧ Deals first kept names := by
  induction rest using List.reverseRecOn generalizing names with
  | nil =>
      obtain ⟨part, none, htakes, hnone, rfl⟩ := row_cons_iff.mp h
      rw [row_nil_iff.mp hnone, List.append_nil]
      exact ⟨[], .nil, deals_nil_iff.mpr htakes⟩
  | append_singleton rest segment ih =>
      rw [← List.cons_append, row_concat_iff] at h
      obtain ⟨before, part, hbefore, htakes, rfl⟩ := h
      obtain ⟨kept, hkept, hdeals⟩ := ih hbefore
      by_cases hpart : part = []
      · subst hpart
        obtain rfl := htakes.eq_allName_of_nil
        rw [List.append_nil]
        exact ⟨kept, Thinned.concat_iff.mpr (Or.inr ⟨rfl, hkept⟩), hdeals⟩
      · exact ⟨kept ++ [segment], Thinned.concat_iff.mpr (Or.inl ⟨kept, hkept, rfl⟩),
          deals_concat_iff.mpr ⟨before, part, hdeals, htakes, rfl, hpart⟩⟩

/-- The last name of a pattern takes a part behind its row of names exactly if it does behind what
is kept of them. -/
theorem exists_row_iff_exists_deals :
    (∃ before part, Row (first :: rest) before ∧ Takes segment part ∧ before ++ part = names ∧
      part ≠ []) ↔ ∃ kept, Thinned rest kept ∧ Deals first (kept ++ [segment]) names := by
  constructor
  · rintro ⟨before, part, hbefore, htakes, rfl, hpart⟩
    obtain ⟨kept, hkept, hdeals⟩ := hbefore.exists_thinned
    exact ⟨kept, hkept, deals_concat_iff.mpr ⟨before, part, hdeals, htakes, rfl, hpart⟩⟩
  · rintro ⟨kept, hkept, hdeals⟩
    obtain ⟨before, part, hfront, htakes, rfl, hpart⟩ := deals_concat_iff.mp hdeals
    exact ⟨before, part, (Thinned.keep first hkept).row hfront.row, htakes, rfl, hpart⟩

end Deals

/-! ## Found files -/

section Leads

variable [Platform] {onlyDirectories : Bool} {first : CodeText} {rest names : List CodeText}

/-- A pattern of one name leads to the files that it takes. -/
theorem leads_singleton_iff (hne : names ≠ []) : Leads onlyDirectories [first] names ↔
    (onlyDirectories = true → hasMagic first = false) ∧ Deals first [] names := by
  rw [← List.nil_append [first], leads_concat_iff, deals_nil_iff]
  constructor
  · rintro (⟨hplain, before, part, hbefore, htakes, rfl, -⟩ | ⟨-, -, hnone⟩)
    · rw [row_nil_iff.mp hbefore]
      exact ⟨hplain, htakes⟩
    · exact absurd (row_nil_iff.mp hnone.row) hne
  · rintro ⟨hplain, htakes⟩
    exact Or.inl ⟨hplain, [], names, row_nil_iff.mpr rfl, htakes, rfl, hne⟩

/-- Where only directories are asked for but not tested for, a pattern leads to a file if its names
are dealt out to what is kept, and the last name that is kept is plain. -/
theorem leads_true_iff (htests : Platform.testsDirectories = false) (hne : names ≠ []) :
    Leads true (first :: rest) names ↔ ∃ kept, Thinned rest kept ∧ Deals first kept names ∧
      ∀ last ∈ (first :: kept).getLast?, hasMagic last = false := by
  induction rest using List.reverseRecOn with
  | nil =>
      rw [leads_singleton_iff hne]
      constructor
      · rintro ⟨hplain, hdeals⟩
        refine ⟨[], .nil, hdeals, ?_⟩
        rintro _ ⟨⟩
        exact hplain rfl
      · rintro ⟨kept, hkept, hdeals, hplain⟩
        cases hkept
        exact ⟨fun _ => hplain first rfl, hdeals⟩
  | append_singleton rest segment ih =>
      rw [← List.cons_append, leads_concat_iff, exists_row_iff_exists_deals, ih]
      constructor
      · rintro (⟨hplain, kept, hkept, hdeals⟩ | ⟨rfl, -, kept, hkept, hdeals, hplain⟩)
        · refine ⟨kept ++ [segment], Thinned.concat_iff.mpr (Or.inl ⟨kept, hkept, rfl⟩), hdeals, ?_⟩
          rw [← List.cons_append, List.getLast?_concat]
          rintro _ ⟨⟩
          exact hplain rfl
        · exact ⟨kept, Thinned.concat_iff.mpr (Or.inr ⟨rfl, hkept⟩), hdeals, hplain⟩
      · rintro ⟨kept, hkept, hdeals, hplain⟩
        rcases Thinned.concat_iff.mp hkept with ⟨kept, hbefore, rfl⟩ | ⟨rfl, hbefore⟩
        · rw [← List.cons_append, List.getLast?_concat] at hplain
          exact Or.inl ⟨fun _ => hplain segment rfl, kept, hbefore, hdeals⟩
        · exact Or.inr ⟨rfl, htests, kept, hbefore, hdeals, hplain⟩

/-- A pattern leads to a file if its names are dealt out to what can be kept of it. -/
theorem leads_false_iff (hne : names ≠ []) : Leads false (first :: rest) names ↔
    ∃ kept, IsThinned first rest kept ∧ Deals first kept names := by
  rcases List.eq_nil_or_concat' rest with rfl | ⟨rest, segment, rfl⟩
  · rw [leads_singleton_iff hne]
    constructor
    · rintro ⟨-, hdeals⟩
      exact ⟨[], ⟨.nil, nofun⟩, hdeals⟩
    · rintro ⟨kept, ⟨hkept, -⟩, hdeals⟩
      cases hkept
      exact ⟨nofun, hdeals⟩
  · rw [← List.cons_append, leads_concat_iff, exists_row_iff_exists_deals]
    constructor
    · rintro (⟨-, kept, hkept, hdeals⟩ | ⟨rfl, htests, hleads⟩)
      · refine ⟨kept ++ [segment], ⟨Thinned.concat_iff.mpr (Or.inl ⟨kept, hkept, rfl⟩), ?_⟩, hdeals⟩
        rw [List.getLast?_concat, ← List.cons_append, List.getLast?_concat]
        rintro ⟨⟩ _ ⟨⟩
        exact Or.inl rfl
      · obtain ⟨kept, hkept, hdeals, hplain⟩ := (leads_true_iff htests hne).mp hleads
        exact ⟨kept, ⟨Thinned.concat_iff.mpr (Or.inr ⟨rfl, hkept⟩),
          fun _ last hlast => Or.inr ⟨htests, hplain last hlast⟩⟩, hdeals⟩
    · rintro ⟨kept, ⟨hkept, hending⟩, hdeals⟩
      rcases Thinned.concat_iff.mp hkept with ⟨kept, hbefore, rfl⟩ | ⟨rfl, hbefore⟩
      · exact Or.inl ⟨nofun, kept, hbefore, hdeals⟩
      · have hending := hending List.getLast?_concat
        by_cases hlast : (first :: kept).getLast? = some allName
        · -- The stars at the end take what the last ones that are kept take.
          obtain ⟨before, part, hfront, hpart, rfl⟩ := hdeals.exists_last hne hlast
          exact Or.inl ⟨nofun, exists_row_iff_exists_deals.mp
            ⟨before, part, (Thinned.keep first hbefore).row hfront, Or.inl rfl, rfl, hpart⟩⟩
        · have hplain : ∀ last ∈ (first :: kept).getLast?,
              Platform.testsDirectories = false ∧ hasMagic last = false := fun last hmem =>
            (hending last hmem).resolve_left fun heq => hlast (heq ▸ hmem)
          have htests := (hplain _ (List.getLast?_eq_some_getLast (List.cons_ne_nil first kept))).1
          exact Or.inr ⟨rfl, htests, (leads_true_iff htests hne).mpr
            ⟨kept, hbefore, hdeals, fun last hmem => (hplain last hmem).2⟩⟩

end Leads

namespace IsThinned

variable [Platform] {first : CodeText} {rest kept : List CodeText}

/-- Nothing has to be left out of a pattern. -/
theorem refl (first : CodeText) (rest : List CodeText) : IsThinned first rest rest := by
  refine ⟨.refl rest, fun hall last hlast => Or.inl ?_⟩
  cases rest with
  | nil => cases hall
  | cons second rest =>
      rw [List.getLast?_cons_cons, hall] at hlast
      exact (Option.some.inj hlast).symm

/-- Where two stars stand only at the start, nothing is left out. -/
theorem iff_of_not_mem (hnone : allName ∉ rest) : IsThinned first rest kept ↔ kept = rest := by
  constructor
  · exact fun h => h.thinned.eq_of_not_mem hnone
  · rintro rfl
    exact refl first kept

/-- The names that are kept are names of the pattern. -/
theorem isSegment (h : IsThinned first rest kept)
    (hsegments : ∀ segment ∈ first :: rest, IsSegment segment) :
    ∀ segment ∈ first :: kept, IsSegment segment := by
  exact fun segment hmem => hsegments segment ((h.thinned.sublist.cons_cons first).subset hmem)

end IsThinned

namespace Tree

variable {tree : Tree} {first : CodeText} {rest : List CodeText}

/-- A search that has to go on too deeply within itself has no result; it goes on once for each name
of the pattern, once for each level of the tree and twice more at most.  Every other search finds a
file exactly if the pattern with some of its stars left out selects it; so it finds what the pattern
selects, and nothing else if two stars stand only at the start. -/
theorem glob_joined [Platform] (hsound : tree.IsSound)
    (hsegments : ∀ segment ∈ first :: rest, IsSegment segment)
    {file : CodeText × List UInt8} (hfile : file ∈ tree.files) (hlines : .scalar '\n' ∉ file.1) :
    (Platform.maxSearches < tree.searches (joined (first :: rest)) false →
      tree.glob (joined (first :: rest)) = .error (.pattern .tooManySearches)) ∧
    tree.searches (joined (first :: rest)) false
      ≤ (first :: rest).length + (tree.top.levels false + 2) ∧
    (tree.searches (joined (first :: rest)) false ≤ Platform.maxSearches →
      (tree.Finds (joined (first :: rest)) file.1 ↔
        ∃ kept, IsThinned first rest kept ∧
          Glob.selects file.1 (joined (first :: kept)) = .ok true) ∧
      ∃ selected, Glob.selects file.1 (joined (first :: rest)) = .ok selected ∧
        (selected = true → tree.Finds (joined (first :: rest)) file.1) ∧
        (allName ∉ rest →
          (tree.Finds (joined (first :: rest)) file.1 ↔ selected = true))) := by
  refine ⟨fun hdeep => ?_, searches_joined_le hsegments false, fun hsearches => ?_⟩
  · rw [glob, searchFault?, if_pos hdeep]
  obtain ⟨path, bytes⟩ := file
  obtain ⟨names, hne, hthere, rfl⟩ := hsound.exists_of_mem_files hfile
  have hnames := fun name hname => (hthere.isEntryName hsound name hname).slash
  have hfinds : tree.Finds (joined (first :: rest)) (joined names) ↔
      ∃ kept, IsThinned first rest kept ∧
        Glob.selects (joined names) (joined (first :: kept)) = .ok true := by
    rw [hthere.finds_iff hsound hsegments (List.cons_ne_nil _ _) hsearches, leads_false_iff hne]
    exact exists_congr fun kept => and_congr_right fun hkept =>
      (Glob.selects_joined_iff (hkept.isSegment hsegments) hne hnames hlines).symm
  refine ⟨hfinds, _, Glob.selects_joined_eq hsegments _, fun hselected => ?_, fun hnone => ?_⟩
  · refine hfinds.mpr ⟨rest, .refl first rest, ?_⟩
    rw [Glob.selects_joined_eq hsegments, hselected]
  · rw [hfinds]
    simp only [IsThinned.iff_of_not_mem hnone, exists_eq_left]
    rw [Glob.selects_joined_eq hsegments, Except.ok.injEq]

/-! ## A file in a directory -/

/-- A tree with one file in one directory. -/
def dataFolder : Tree where
  top := .directory [(codeText "data", .directory [(codeText "y.json", .file [0x7b, 0x7d])])]
  working := { root := [slash], names := [] }

/-- The names of a pattern with two stars in the middle. -/
def dataPattern : List CodeText :=
  [codeText "data", allName, codeText "*.json"]

/-- The names in the tree are sound. -/
theorem isSound_dataFolder : dataFolder.IsSound where
  top := by
    have hinner : Node.IsSound (.directory [(codeText "y.json", .file [0x7b, 0x7d])]) :=
      .directory (List.forall_mem_singleton.mpr
        ⟨by decide, by decide, by decide, by decide, by decide, by decide, by decide⟩)
        (List.pairwise_singleton ..) (List.forall_mem_singleton.mpr (.file _))
    exact .directory (List.forall_mem_singleton.mpr
      ⟨by decide, by decide, by decide, by decide, by decide, by decide, by decide⟩)
      (List.pairwise_singleton ..) (List.forall_mem_singleton.mpr hinner)
  root := Or.inl rfl
  working := ⟨_, .here _⟩
  size := by
    intro names node h
    rcases h with _ | ⟨hdata, h⟩
    · decide
    · obtain ⟨rfl, rfl⟩ := Prod.mk.inj (List.mem_singleton.mp hdata)
      rcases h with _ | ⟨hfile, h⟩
      · decide
      · obtain ⟨rfl, rfl⟩ := Prod.mk.inj (List.mem_singleton.mp hfile)
        cases h
        decide

/-- The pattern consists of names of patterns. -/
theorem isSegment_dataPattern : ∀ segment ∈ dataPattern, IsSegment segment := by
  rintro _ (_ | ⟨_, _ | ⟨_, _ | ⟨_, ⟨⟩⟩⟩⟩)
  all_goals exact ⟨by decide, by decide, by decide, by decide, by decide, by decide, by decide⟩

/-- The file is in the tree. -/
theorem mem_files_dataFolder : (codeText "data/y.json", [0x7b, 0x7d]) ∈ dataFolder.files := by
  decide

/-- The file is found although two stars stand for no directory there. -/
theorem glob_joined_dataPattern :
    dataFolder.searches (joined dataPattern) false ≤ Platform.maxSearches ∧
      IsThinned (codeText "data") [allName, codeText "*.json"] [codeText "*.json"] ∧
      Glob.selects (codeText "data/y.json") (codeText "data/*.json") = .ok true ∧
      dataFolder.Finds (joined dataPattern) (codeText "data/y.json") := by
  have hsearches : dataFolder.searches (joined dataPattern) false ≤ Platform.maxSearches :=
    (searches_joined_le isSegment_dataPattern false).trans (by decide)
  have hthinned : IsThinned (codeText "data") [allName, codeText "*.json"] [codeText "*.json"] :=
    ⟨.leave (.keep _ .nil), fun hall => absurd hall (by decide)⟩
  have hselects : Glob.selects (codeText "data/y.json") (codeText "data/*.json") = .ok true := by
    decide +kernel
  exact ⟨hsearches, hthinned, hselects,
    ((glob_joined isSound_dataFolder isSegment_dataPattern mem_files_dataFolder
      (by decide)).2.2 hsearches).1.mpr ⟨_, hthinned, hselects⟩⟩

/-- The file is found, but the pattern does not select it. -/
theorem finds_not_selects_dataPattern :
    dataFolder.IsSound ∧ (∀ segment ∈ dataPattern, IsSegment segment) ∧
      (codeText "data/y.json", [0x7b, 0x7d]) ∈ dataFolder.files ∧
      dataFolder.Finds (joined dataPattern) (codeText "data/y.json") ∧
      Glob.selects (codeText "data/y.json") (joined dataPattern) = .ok false := by
  have hthere : dataFolder.Has [codeText "data", codeText "y.json"] (.file [0x7b, 0x7d]) :=
    .under List.mem_cons_self (.under List.mem_cons_self (.here _))
  have hdirectory : Row [codeText "data", allName] [codeText "data"] :=
    row_cons_iff.mpr ⟨[codeText "data"], [], Or.inr ⟨_, rfl, by cbv⟩,
      row_cons_iff.mpr ⟨[], [], Or.inl rfl, row_nil_iff.mpr rfl, rfl⟩, rfl⟩
  have hfile : Takes (codeText "*.json") [codeText "y.json"] := Or.inr ⟨_, rfl, by cbv⟩
  refine ⟨isSound_dataFolder, isSegment_dataPattern, mem_files_dataFolder, ?_, by decide +kernel⟩
  have hsearches : dataFolder.searches (joined dataPattern) false ≤ Platform.maxSearches :=
    (searches_joined_le isSegment_dataPattern false).trans (by decide)
  exact (hthere.finds_iff isSound_dataFolder isSegment_dataPattern (List.cons_ne_nil _ _)
    hsearches).mpr (.part hdirectory hfile (List.cons_ne_nil _ _) fun h => by cases h)

end Tree

end KeyOrder
