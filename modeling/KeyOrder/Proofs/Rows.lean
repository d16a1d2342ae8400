import KeyOrder.Proofs.PatternRows
/-!
# Rows of names that patterns lead to

A path is cut into its names and a pattern into its own.  The names of a path are dealt out
to those of a pattern if each takes the names that it matches, two stars any number of them.
A pattern leads to a file if they are dealt out so that the file itself is taken by the last
name that takes any, and by a plain one if two stars that take nothing stand behind it.
-/

namespace KeyOrder

/-! ## Plain names and special characters -/

/-- A path has special characters only in its names. -/
theorem hasMagic_joined_eq_false_iff {names : List CodeText} :
    hasMagic (joined names) = false ↔ ∀ name ∈ names, hasMagic name = false := by
  induction names with
  | nil => exact iff_of_true rfl (List.forall_mem_nil _)
  | cons name names ih =>
      rw [List.forall_mem_cons]
      by_cases hnil : names = []
      · subst hnil
        rw [joined_singleton]
        exact (and_iff_left (List.forall_mem_nil _)).symm
      · rw [joined_cons name hnil, hasMagic, List.any_append, Bool.or_eq_false_iff, List.any_cons]
        exact and_congr_right fun _ => ih

/-- A name pattern without special characters matches only itself. -/
theorem Glob.matchesName_plain_iff {segment name : CodeText} (hplain : hasMagic segment = false) :
    matchesName segment name = true ↔ name = segment := by
  rw [matchesName_iff]
  induction segment generalizing name with
  | nil =>
      rw [namePieces, List.map_nil, List.prod_nil, Language.mem_one]
  | cons c rest ih =>
      rw [hasMagic, List.any_cons, Bool.or_eq_false_iff] at hplain
      obtain ⟨hc, hrest⟩ := hplain
      obtain ⟨⟨hstar, hmark⟩, hbracket⟩ :
          (c ≠ .scalar '*' ∧ c ≠ .scalar '?') ∧ c ≠ .scalar '[' := by
        simpa [isMagic] using hc
      rw [namePieces_cons hbracket, if_neg hstar, if_neg hmark, List.map_cons, List.prod_cons]
      cases name with
      | nil => exact iff_of_false nil_not_mem_single_mul (List.cons_ne_nil c rest).symm
      | cons d name =>
          show d :: name ∈ single (· == c) * _ ↔ _
          rw [cons_mem_single_mul, ih hrest, beq_iff_eq, List.cons.injEq]

/-- A name without special characters takes only itself. -/
theorem Glob.Takes.eq_of_plain {segment : CodeText} {part : List CodeText} (h : Takes segment part)
    (hplain : hasMagic segment = false) : part = [segment] := by
  rcases h with rfl | ⟨name, rfl, hname⟩
  · exact absurd hplain (by decide)
  · rw [(matchesName_plain_iff hplain).mp hname]

/-- Only two stars take no names. -/
theorem Glob.Takes.eq_allName_of_nil {segment : CodeText} (h : Takes segment []) :
    segment = allName := by
  exact h.resolve_right fun ⟨name, hname, _⟩ => List.cons_ne_nil name [] hname.symm

/-! ## Rows that lead somewhere -/

open Glob (IsSegment Takes)

/-- Names are dealt out to a row of names of a pattern. -/
def Row (segments names : List CodeText) : Prop :=
  ∃ parts, List.Forall₂ Takes segments parts ∧ parts.flatten = names

/-- A row of names of a pattern leads to a file.  The file is taken by the last name of the pattern
that takes any, which has to be plain if only directories are asked for; behind it stand two stars,
which ask for directories before them and, where they are tested for, lead to no file. -/
inductive Leads [Platform] : Bool → List CodeText → List CodeText → Prop
  | part {onlyDirectories : Bool} {segments names part : List CodeText} {segment : CodeText}
      (hrow : Row segments names) (htakes : Takes segment part) (hne : part ≠ [])
      (hplain : onlyDirectories = true → hasMagic segment = false) :
      Leads onlyDirectories (segments ++ [segment]) (names ++ part)
  | nothing {onlyDirectories : Bool} {segments names : List CodeText}
      (htests : Platform.testsDirectories = false) (h : Leads true segments names) :
      Leads onlyDirectories (segments ++ [allName]) names

/-- To no names of a pattern no names are dealt out. -/
@[simp] theorem row_nil_iff {names : List CodeText} : Row [] names ↔ names = [] := by
  constructor
  · rintro ⟨parts, hparts, rfl⟩
    rw [List.forall₂_nil_left_iff.mp hparts, List.flatten_nil]
  · rintro rfl
    exact ⟨[], .nil, rfl⟩

/-- The first name of a pattern takes the first part. -/
theorem row_cons_iff {segments names : List CodeText} {segment : CodeText} :
    Row (segment :: segments) names ↔ ∃ part rest, Takes segment part ∧ Row segments rest ∧
      part ++ rest = names := by
  constructor
  · rintro ⟨_, hall, rfl⟩
    obtain ⟨part, parts, htakes, hparts, rfl⟩ := List.forall₂_cons_left_iff.mp hall
    exact ⟨part, parts.flatten, htakes, ⟨parts, hparts, rfl⟩, rfl⟩
  · rintro ⟨part, _, htakes, ⟨parts, hparts, rfl⟩, rfl⟩
    exact ⟨part :: parts, .cons htakes hparts, rfl⟩

/-- Names are dealt out to two rows one after the other. -/
theorem row_append_iff {segments segments' names : List CodeText} :
    Row (segments ++ segments') names ↔ ∃ before after, Row segments before ∧
      Row segments' after ∧ before ++ after = names := by
  induction segments generalizing names with
  | nil => simp
  | cons segment segments ih =>
      rw [List.cons_append, row_cons_iff]
      constructor
      · rintro ⟨part, _, htakes, hrest, rfl⟩
        obtain ⟨before, after, hbefore, hafter, rfl⟩ := ih.mp hrest
        exact ⟨part ++ before, after, row_cons_iff.mpr ⟨part, before, htakes, hbefore, rfl⟩, hafter,
          List.append_assoc ..⟩
      · rintro ⟨_, after, hrow, hafter, rfl⟩
        obtain ⟨part, before, htakes, hbefore, rfl⟩ := row_cons_iff.mp hrow
        exact ⟨part, before ++ after, htakes, ih.mpr ⟨before, after, hbefore, hafter, rfl⟩,
          (List.append_assoc ..).symm⟩

/-- The last name of a pattern takes the last part. -/
theorem row_concat_iff {segments names : List CodeText} {segment : CodeText} :
    Row (segments ++ [segment]) names ↔ ∃ before part, Row segments before ∧
      Takes segment part ∧ before ++ part = names := by
  simp [row_append_iff, row_cons_iff]

/-- What a row leads to is dealt out to it. -/
theorem Leads.row [Platform] {onlyDirectories : Bool} {segments names : List CodeText}
    (h : Leads onlyDirectories segments names) : Row segments names := by
  induction h with
  | part hrow htakes _ _ => exact row_concat_iff.mpr ⟨_, _, hrow, htakes, rfl⟩
  | nothing _ _ ih => exact row_concat_iff.mpr ⟨_, [], ih, Or.inl rfl, List.append_nil _⟩

/-- Names of patterns take themselves. -/
theorem row_self {segments : List CodeText} (hsegments : ∀ segment ∈ segments, IsSegment segment) :
    Row segments segments := by
  refine ⟨segments.map ([·]), List.forall₂_map_right_iff.mpr
    (List.forall₂_same.mpr fun segment h => (hsegments segment h).takes_self), ?_⟩
  rw [← List.flatMap_def, List.flatMap_singleton']

/-- To names without special characters nothing but these names is dealt out. -/
theorem Row.eq_of_plain {segments names : List CodeText} (h : Row segments names)
    (hplain : ∀ segment ∈ segments, hasMagic segment = false) : names = segments := by
  induction segments generalizing names with
  | nil => exact row_nil_iff.mp h
  | cons segment segments ih =>
      obtain ⟨hsegment, hplain⟩ := List.forall_mem_cons.mp hplain
      obtain ⟨part, rest, htakes, hrest, rfl⟩ := row_cons_iff.mp h
      rw [htakes.eq_of_plain hsegment, ih hrest hplain, List.singleton_append]

/-- Names without special characters at the start of a pattern are the first names that are dealt
out to it. -/
theorem Row.isPrefix_of_plain {segments more names : List CodeText}
    (h : Row (segments ++ more) names) (hplain : ∀ segment ∈ segments, hasMagic segment = false) :
    segments <+: names := by
  obtain ⟨before, after, hbefore, -, rfl⟩ := row_append_iff.mp h
  rw [hbefore.eq_of_plain hplain]
  exact List.prefix_append _ _

/-- What leads to a file ends with a part for the last name, or with nothing for two stars. -/
theorem leads_concat_iff [Platform] {onlyDirectories : Bool} {segments names : List CodeText}
    {segment : CodeText} : Leads onlyDirectories (segments ++ [segment]) names ↔
      (onlyDirectories = true → hasMagic segment = false) ∧
        (∃ before part, Row segments before ∧ Takes segment part ∧ before ++ part = names ∧
          part ≠ []) ∨
      segment = allName ∧ Platform.testsDirectories = false ∧ Leads true segments names := by
  constructor
  · intro h
    generalize hall : segments ++ [segment] = all at h
    cases h with
    | part hrow htakes hne hplain =>
        obtain ⟨rfl, hlast⟩ := List.append_inj' hall rfl
        obtain rfl := (List.cons.inj hlast).1
        exact Or.inl ⟨hplain, _, _, hrow, htakes, rfl, hne⟩
    | nothing htests h =>
        obtain ⟨rfl, hlast⟩ := List.append_inj' hall rfl
        exact Or.inr ⟨(List.cons.inj hlast).1, htests, h⟩
  · rintro (⟨hplain, before, part, hrow, htakes, rfl, hne⟩ | ⟨rfl, htests, h⟩)
    · exact .part hrow htakes hne hplain
    · exact .nothing htests h

/-- The last name of a pattern takes a part, which is something else than a file if only directories
are asked for, or it is two stars that take nothing, which leads to a file only where directories
are not tested for. -/
theorem Row.exists_last [Platform] {isFile onlyDirectories : Bool} {segments names : List CodeText}
    {segment : CodeText} (h : Row (segments ++ [segment]) names)
    (hleads : isFile = true → Leads onlyDirectories (segments ++ [segment]) names) :
    ∃ before part, Row segments before ∧ Takes segment part ∧ before ++ part = names ∧
      (part ≠ [] ∧ (hasMagic segment = true → (onlyDirectories && isFile) = false) ∨
        part = [] ∧ segment = allName ∧ (isFile = true →
          Platform.testsDirectories = false ∧ Leads true segments before)) := by
  cases isFile with
  | true =>
      rcases leads_concat_iff.mp (hleads rfl) with
        ⟨hplain, before, part, hrow, htakes, rfl, hne⟩ | ⟨rfl, htests, hmore⟩
      · refine ⟨before, part, hrow, htakes, rfl, Or.inl ⟨hne, fun hmagic => ?_⟩⟩
        rw [Bool.and_true]
        exact Bool.eq_false_iff.mpr fun honly => by
          rw [hplain honly] at hmagic
          cases hmagic
      · exact ⟨names, [], hmore.row, Or.inl rfl, List.append_nil names,
          Or.inr ⟨rfl, rfl, fun _ => ⟨htests, hmore⟩⟩⟩
  | false =>
      obtain ⟨before, part, hrow, htakes, rfl⟩ := row_concat_iff.mp h
      refine ⟨before, part, hrow, htakes, rfl, ?_⟩
      by_cases hnil : part = []
      · subst hnil
        exact Or.inr ⟨rfl, htakes.eq_allName_of_nil, fun hfile => Bool.noConfusion hfile⟩
      · exact Or.inl ⟨hnil, fun _ => Bool.and_false _⟩

end KeyOrder
