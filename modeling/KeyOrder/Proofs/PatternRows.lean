import KeyOrder.Proofs.JoinedNames
import KeyOrder.Proofs.Matching
import KeyOrder.Proofs.TargetSets
import KeyOrder.Store.Walk
import Mathlib
/-!
# Patterns as rows of names

A path is a row of names with slashes between them, and so is a pattern.  A pattern whose
names have no groups and no brackets selects a path exactly if the names of the path can be
dealt out to the names of the pattern: to two stars any number of them, though none of them
only at the very start, to any other name of the pattern one name that it takes.
-/

namespace KeyOrder.Glob

/-! ## Names of patterns -/

/-- A name of a pattern: it is no dot name, it has no groups and no brackets, and of stars next to
each other nothing but two stars alone. -/
structure IsSegment (segment : CodeText) : Prop where
  nonempty : segment ≠ []
  slash : slash ∉ segment
  current : segment ≠ currentName
  parent : segment ≠ parentName
  brace : .scalar '{' ∉ segment
  bracket : .scalar '[' ∉ segment
  stars : segment = allName ∨ ¬ allName <:+: segment

/-- A name of a pattern takes a row of names: two stars any row, any other name one name that it
matches. -/
def Takes (segment : CodeText) (names : List CodeText) : Prop :=
  segment = allName ∨ ∃ name, names = [name] ∧ matchesName segment name = true

/-- The texts that a name of a pattern stands for in a pattern of paths. -/
def segmentLanguage (segment : CodeText) : Language CodePoint :=
  ((piecesOf segment).map Piece.language).prod

/-- Two stars stand for any text. -/
theorem segmentLanguage_allName : segmentLanguage allName = ⊤ :=
  mul_one _

/-- What a piece of a name pattern takes of a name. -/
def NamePiece.taken : NamePiece → Language CodePoint
  | anything => many fun _ => true
  | one => single fun _ => true
  | oneOf set => single set.contains
  | literal c => single (· == c)

/-- A name pattern matches the names that its pieces take. -/
theorem matchesName_iff {pattern name : CodeText} : matchesName pattern name = true ↔
    name ∈ ((namePieces pattern).map NamePiece.taken).prod := by
  have hmarks : Marks ((namePieces pattern).map NamePiece.taken).prod name
      ((namePieces pattern).foldr (fun piece => piece.take name) (endsOf List.isEmpty name)) := by
    induction namePieces pattern with
    | nil =>
        have hnil : ([].map NamePiece.taken).prod = {s : CodeText | s.isEmpty = true} := by
          ext s
          rw [List.map_nil, List.prod_nil, Language.mem_one]
          exact List.isEmpty_iff.symm
        rw [hnil]
        exact marks_endsOf List.isEmpty name
    | cons piece pieces ih =>
        rw [List.map_cons, List.prod_cons]
        cases piece with
        | anything => exact ih.takeAny
        | one => exact ih.takeOne
        | oneOf set => exact ih.takeOne
        | literal c => exact ih.takeOne
  exact hmarks.whole_iff

/-- The first piece of a name pattern that does not start with a bracket. -/
theorem namePieces_cons {c : CodePoint} (hbracket : c ≠ .scalar '[') (rest : CodeText) :
    namePieces (c :: rest) = (if c = .scalar '*' then .anything
      else if c = .scalar '?' then .one else .literal c) :: namePieces rest := by
  rw [namePieces, if_neg hbracket]
  split
  · rfl
  · split <;> rfl

/-- Where no stars stand next to each other, a name pattern takes the names that it stands for in a
pattern of paths. -/
theorem agreeWithout_slash {segment : CodeText} (hbracket : .scalar '[' ∉ segment)
    (hstars : ¬ allName <:+: segment) :
    AgreeWithout slash ((namePieces segment).map NamePiece.taken).prod
      (segmentLanguage segment) := by
  unfold segmentLanguage
  induction segment with
  | nil =>
      rw [namePieces]
      exact fun _ _ => Iff.rfl
  | cons c rest ih =>
      obtain ⟨hc, hrest⟩ := not_or.mp (List.mem_cons.not.mp hbracket)
      have ih := ih hrest fun h => hstars (h.trans (List.suffix_cons c rest).isInfix)
      rw [namePieces_cons (Ne.symm hc), List.map_cons, List.prod_cons]
      by_cases hstar : c = .scalar '*'
      · subst hstar
        have hnext : ∀ tail, rest ≠ .scalar '*' :: tail := by
          rintro tail rfl
          exact hstars ⟨[], tail, rfl⟩
        rw [if_pos rfl, piecesOf_star hnext, List.map_cons, List.prod_cons]
        refine AgreeWithout.mul (fun s hs => ?_) ih
        exact iff_of_true (fun _ _ => rfl) hs
      · rw [if_neg hstar]
        by_cases hmark : c = .scalar '?'
        · subst hmark
          rw [if_pos rfl, piecesOf, List.map_cons, List.prod_cons]
          refine AgreeWithout.mul (fun s hs => ?_) ih
          constructor
          · rintro ⟨d, -, rfl⟩
            exact ⟨d, fun heq => hs (heq ▸ List.mem_cons_self), rfl⟩
          · rintro ⟨d, -, rfl⟩
            exact ⟨d, rfl, rfl⟩
        · rw [if_neg hmark, piecesOf_literal hstar hmark, List.map_cons, List.prod_cons]
          refine AgreeWithout.mul (fun s _ => ?_) ih
          show (∃ d, (d == c) = true ∧ s = [d]) ↔ s = [c]
          simp only [beq_iff_eq, exists_eq_left]

/-- Pieces that are no two stars and no slash stand for texts without slashes. -/
theorem not_mem_of_mem_prod {pieces : List Piece}
    (hpieces : ∀ piece ∈ pieces, piece ≠ .anything ∧ piece ≠ .literal slash) {s : CodeText}
    (hs : s ∈ (pieces.map Piece.language).prod) : slash ∉ s := by
  induction pieces generalizing s with
  | nil =>
      rw [List.map_nil, List.prod_nil, Language.mem_one] at hs
      rw [hs]
      exact List.not_mem_nil
  | cons piece pieces ih =>
      obtain ⟨⟨hany, hslash⟩, hpieces⟩ := List.forall_mem_cons.mp hpieces
      rw [List.map_cons, List.prod_cons, Language.mem_mul] at hs
      obtain ⟨part, hpart, rest, hrest, rfl⟩ := hs
      refine List.mem_append.not.mpr (not_or.mpr ⟨?_, ih hpieces hrest⟩)
      cases piece with
      | anything => exact absurd rfl hany
      | withinName => exact hpart
      | oneInName =>
          obtain ⟨c, hc, rfl⟩ := hpart
          exact fun h => hc (List.mem_singleton.mp h).symm
      | literal c =>
          obtain rfl := hpart
          exact fun h => hslash (congrArg Piece.literal (List.mem_singleton.mp h).symm)

/-- Pieces stand for their own text. -/
theorem flatMap_text_mem_prod (pieces : List Piece) :
    pieces.flatMap Piece.text ∈ (pieces.map Piece.language).prod := by
  induction pieces with
  | nil => exact Language.nil_mem_one
  | cons piece pieces ih =>
      rw [List.flatMap_cons, List.map_cons, List.prod_cons]
      refine Language.append_mem_mul ?_ ih
      cases piece with
      | anything => trivial
      | withinName => exact (by decide : slash ∉ codeText "*")
      | oneInName => exact ⟨.scalar '?', by decide, rfl⟩
      | literal c => rfl

namespace IsSegment

variable {segment : CodeText} (h : IsSegment segment)

include h

/-- Other names of patterns than two stars stand for texts without slashes. -/
theorem not_mem_of_mem (hne : segment ≠ allName) {s : CodeText} (hs : s ∈ segmentLanguage segment) :
    KeyOrder.slash ∉ s := by
  have htext := (isReading_piecesOf segment).text_eq
  refine not_mem_of_mem_prod (fun piece hpiece => ⟨?_, ?_⟩) hs
  · rintro rfl
    obtain ⟨before, after, hpieces⟩ := List.append_of_mem hpiece
    refine h.stars.resolve_left hne ⟨before.flatMap Piece.text, after.flatMap Piece.text, ?_⟩
    rw [← htext, hpieces, List.flatMap_append, List.flatMap_cons, List.append_assoc]
    rfl
  · rintro rfl
    refine h.slash (htext ▸ List.mem_flatMap.mpr ⟨_, hpiece, List.mem_singleton_self _⟩)

/-- Other names of patterns than two stars match the names that they stand for. -/
theorem matchesName_iff (hne : segment ≠ allName) {name : CodeText}
    (hname : KeyOrder.slash ∉ name) :
    matchesName segment name = true ↔ name ∈ segmentLanguage segment := by
  rw [Glob.matchesName_iff]
  exact agreeWithout_slash h.bracket (h.stars.resolve_left hne) name hname

/-- A name of a pattern takes itself. -/
theorem takes_self : Takes segment [segment] := by
  by_cases hne : segment = allName
  · exact Or.inl hne
  · refine Or.inr ⟨segment, rfl, (h.matchesName_iff hne h.slash).mpr ?_⟩
    have hself := flatMap_text_mem_prod (piecesOf segment)
    rwa [(isReading_piecesOf segment).text_eq] at hself

/-- A name of a pattern takes the rows of names whose path it stands for. -/
theorem joined_mem_iff {names : List CodeText} (hne : names ≠ [])
    (hnames : ∀ name ∈ names, KeyOrder.slash ∉ name) :
    joined names ∈ segmentLanguage segment ↔ Takes segment names := by
  by_cases hall : segment = allName
  · subst hall
    rw [segmentLanguage_allName]
    exact iff_of_true trivial (Or.inl rfl)
  · rw [Takes, or_iff_right hall]
    constructor
    · intro hmem
      obtain ⟨name, rfl⟩ := eq_singleton_of_joined hne (h.not_mem_of_mem hall hmem)
      rw [joined_singleton] at hmem
      exact ⟨name, rfl, (h.matchesName_iff hall (hnames name List.mem_cons_self)).mpr hmem⟩
    · rintro ⟨name, rfl, hname⟩
      rw [joined_singleton]
      exact (h.matchesName_iff hall (hnames name List.mem_cons_self)).mp hname

end IsSegment

/-! ## Rows of names of patterns -/

/-- A slash in a pattern stands for itself wherever it is. -/
theorem piecesOf_append_slash (before after : CodeText) :
    piecesOf (before ++ slash :: after)
      = piecesOf before ++ .literal slash :: piecesOf after := by
  have hstar : ∀ tail, slash :: after ≠ .scalar '*' :: tail := fun tail htail =>
    absurd (List.cons.inj htail).1 (by decide)
  rw [piecesOf_append before hstar, piecesOf_literal (by decide) (by decide)]

/-- The texts that a row of names of a pattern stands for. -/
theorem segmentLanguage_joined_cons (segment : CodeText) {segments : List CodeText}
    (hne : segments ≠ []) : segmentLanguage (joined (segment :: segments))
      = segmentLanguage segment * ({[slash]} * segmentLanguage (joined segments)) := by
  rw [joined_cons segment hne, segmentLanguage, piecesOf_append_slash, List.map_append,
    List.prod_append, List.map_cons, List.prod_cons]
  rfl

/-- Parts of which none is empty are no empty row together, if there are any. -/
theorem flatten_ne_nil {segments : List CodeText} {parts : List (List CodeText)}
    (hne : segments ≠ []) (hparts : List.Forall₂ Takes segments parts)
    (hfull : ∀ part ∈ parts, part ≠ []) : parts.flatten ≠ [] := by
  intro hempty
  cases hparts with
  | nil => exact hne rfl
  | cons _ _ =>
      exact hfull _ List.mem_cons_self (List.flatten_eq_nil_iff.mp hempty _ List.mem_cons_self)

/-- A row of names of a pattern stands for a path exactly if the names of the path can be dealt out
to them, at least one to each. -/
theorem joined_mem_segmentLanguage_iff {segments names : List CodeText} (hne : segments ≠ [])
    (hsegments : ∀ segment ∈ segments, IsSegment segment) (hnamesNe : names ≠ [])
    (hnames : ∀ name ∈ names, slash ∉ name) :
    joined names ∈ segmentLanguage (joined segments) ↔
      ∃ parts, List.Forall₂ Takes segments parts ∧ (∀ part ∈ parts, part ≠ []) ∧
        parts.flatten = names := by
  induction segments generalizing names with
  | nil => exact absurd rfl hne
  | cons segment segments ih =>
      obtain ⟨hsegment, hsegments⟩ := List.forall_mem_cons.mp hsegments
      by_cases hnil : segments = []
      · subst hnil
        rw [joined_singleton, hsegment.joined_mem_iff hnamesNe hnames]
        constructor
        · intro htakes
          exact ⟨[names], .cons htakes .nil, List.forall_mem_singleton.mpr hnamesNe,
            List.flatten_singleton⟩
        · rintro ⟨parts, hparts, -, rfl⟩
          obtain ⟨part, _, htakes, hrest, rfl⟩ := List.forall₂_cons_left_iff.mp hparts
          obtain rfl := List.forall₂_nil_left_iff.mp hrest
          rwa [List.flatten_singleton]
      · rw [segmentLanguage_joined_cons segment hnil, Language.mem_mul]
        constructor
        · rintro ⟨before, hbefore, _, hrest, heq⟩
          obtain ⟨_, rfl, after, hafter, rfl⟩ := Language.mem_mul.mp hrest
          obtain ⟨names₁, names₂, hne₁, hne₂, rfl, rfl, rfl⟩ :=
            (joined_eq_append_iff hnames).mp heq.symm
          obtain ⟨hnames₁, hnames₂⟩ := List.forall_mem_append.mp hnames
          obtain ⟨parts, hparts, hfull, rfl⟩ := (ih hnil hsegments hne₂ hnames₂).mp hafter
          exact ⟨names₁ :: parts, .cons ((hsegment.joined_mem_iff hne₁ hnames₁).mp hbefore) hparts,
            List.forall_mem_cons.mpr ⟨hne₁, hfull⟩, rfl⟩
        · rintro ⟨_, hall, hfull, rfl⟩
          obtain ⟨part, parts, htakes, hparts, rfl⟩ := List.forall₂_cons_left_iff.mp hall
          obtain ⟨hpart, hfull⟩ := List.forall_mem_cons.mp hfull
          have hflatten := flatten_ne_nil hnil hparts hfull
          rw [List.flatten_cons] at hnames ⊢
          obtain ⟨hnames₁, hnames₂⟩ := List.forall_mem_append.mp hnames
          rw [joined_append hpart hflatten]
          exact ⟨_, (hsegment.joined_mem_iff hpart hnames₁).mpr htakes, _,
            Language.mem_mul.mpr ⟨[slash], rfl, _,
              (ih hnil hsegments hflatten hnames₂).mpr ⟨parts, hparts, hfull, rfl⟩, rfl⟩, rfl⟩

/-! ## Selected paths -/

/-- The names of a path are dealt out to the names of a pattern: to the first one those that it
takes, to each of the others at least one. -/
def Deals (first : CodeText) (rest names : List CodeText) : Prop :=
  ∃ part parts, Takes first part ∧ List.Forall₂ Takes rest parts ∧
    (∀ other ∈ parts, other ≠ []) ∧ part ++ parts.flatten = names

section Deals

variable {first : CodeText} {rest names : List CodeText}

/-- Where the first name has a part of its own, there is a part for each name. -/
theorem deals_iff (hne : names ≠ []) (hfirst : first ≠ allName ∨ rest = []) :
    Deals first rest names ↔ ∃ parts, List.Forall₂ Takes (first :: rest) parts ∧
      (∀ part ∈ parts, part ≠ []) ∧ parts.flatten = names := by
  constructor
  · rintro ⟨part, parts, htakes, hparts, hfull, rfl⟩
    refine ⟨part :: parts, .cons htakes hparts, List.forall_mem_cons.mpr ⟨?_, hfull⟩, rfl⟩
    rcases hfirst with hfirst | rfl
    · obtain ⟨name, rfl, -⟩ := htakes.resolve_left hfirst
      exact List.cons_ne_nil _ _
    · obtain rfl := List.forall₂_nil_left_iff.mp hparts
      rwa [List.flatten_nil, List.append_nil] at hne
  · rintro ⟨_, hall, hfull, rfl⟩
    obtain ⟨part, parts, htakes, hparts, rfl⟩ := List.forall₂_cons_left_iff.mp hall
    exact ⟨part, parts, htakes, hparts, (List.forall_mem_cons.mp hfull).2, rfl⟩

variable (hsegments : ∀ segment ∈ first :: rest, IsSegment segment)
  (hne : names ≠ []) (hnames : ∀ name ∈ names, slash ∉ name)

include hsegments

/-- Two stars and a slash stand at the start of a pattern only if two stars are its first name and
not its last one. -/
theorem isStart_iff : codeText "**/" <+: joined (first :: rest) ↔ first = allName ∧ rest ≠ [] := by
  have hslash : ∀ segment ∈ first :: rest, slash ∉ segment := fun segment h =>
    (hsegments segment h).slash
  constructor
  · rintro ⟨after, hafter⟩
    have hcut : joined (first :: rest) = allName ++ slash :: after := hafter.symm
    obtain ⟨names₁, names₂, hne₁, hne₂, hrow, hjoined, -⟩ := (joined_eq_append_iff hslash).mp hcut
    obtain ⟨name, rfl⟩ := eq_singleton_of_joined hne₁ (hjoined ▸ by decide)
    obtain ⟨rfl, rfl⟩ := List.cons.inj hrow
    rw [joined_singleton] at hjoined
    exact ⟨hjoined, hne₂⟩
  · rintro ⟨rfl, hrest⟩
    rw [joined_cons allName hrest]
    exact ⟨joined rest, rfl⟩

include hne hnames

/-- A pattern stands for a path exactly if the names of the path can be dealt out to its names. -/
theorem joined_mem_language_iff :
    joined names ∈ (Pattern.ofText (joined (first :: rest))).language ↔ Deals first rest names := by
  by_cases hstart : first = allName ∧ rest ≠ []
  · obtain ⟨rfl, hrest⟩ := hstart
    have hread : Pattern.ofText (joined (allName :: rest))
        = { anyDirectory := true, pieces := piecesOf (joined rest) } := by
      rw [joined_cons allName hrest]
      rfl
    obtain ⟨-, hsegments⟩ := List.forall_mem_cons.mp hsegments
    rw [hread, Pattern.language, if_pos rfl, Language.mem_mul]
    constructor
    · rintro ⟨_, rfl | ⟨directory, rfl⟩, after, hafter, heq⟩
      · obtain rfl : after = joined names := heq
        obtain ⟨parts, hparts, hfull, rfl⟩ :=
          (joined_mem_segmentLanguage_iff hrest hsegments hne hnames).mp hafter
        exact ⟨[], parts, Or.inl rfl, hparts, hfull, rfl⟩
      · rw [List.append_assoc, List.singleton_append] at heq
        obtain ⟨names₁, names₂, hne₁, hne₂, rfl, rfl, rfl⟩ :=
          (joined_eq_append_iff hnames).mp heq.symm
        obtain ⟨parts, hparts, hfull, rfl⟩ := (joined_mem_segmentLanguage_iff hrest hsegments hne₂
          (List.forall_mem_append.mp hnames).2).mp hafter
        exact ⟨names₁, parts, Or.inl rfl, hparts, hfull, rfl⟩
    · rintro ⟨part, parts, -, hparts, hfull, rfl⟩
      have hflatten := flatten_ne_nil hrest hparts hfull
      have hafter := (joined_mem_segmentLanguage_iff hrest hsegments hflatten
        (List.forall_mem_append.mp hnames).2).mpr ⟨parts, hparts, hfull, rfl⟩
      by_cases hpart : part = []
      · subst hpart
        exact ⟨[], Or.inl rfl, _, hafter, rfl⟩
      · refine ⟨joined part ++ [slash], Or.inr ⟨joined part, rfl⟩, _, hafter, ?_⟩
        rw [joined_append hpart hflatten, List.append_assoc, List.singleton_append]
  · have hread := Pattern.ofText_of_not_isPrefix ((isStart_iff hsegments).not.mpr hstart)
    rw [hread, Pattern.language, if_neg Bool.false_ne_true, one_mul,
      deals_iff hne (not_and_or.mp hstart |>.imp_right not_not.mp)]
    exact joined_mem_segmentLanguage_iff (List.cons_ne_nil _ _) hsegments hne hnames

omit hne hnames

/-- There are no groups in a pattern, so there is nothing to expand. -/
theorem firstChoice?_joined : firstChoice? (joined (first :: rest)) = none := by
  refine firstChoice?_of_not_mem fun h => ?_
  rcases mem_joined h with h | ⟨segment, hsegment, h⟩
  · exact absurd h (by decide)
  · exact (hsegments segment hsegment).brace h

/-- Whether a pattern selects a path is always decided. -/
theorem selects_joined_eq [Platform] (path : CodeText) : selects path (joined (first :: rest))
    = .ok (matchesPattern path (joined (first :: rest))) := by
  refine if_pos ?_
  rw [isDecided, isExpandable, choicesIn_of_none (firstChoice?_joined hsegments), Bool.or_eq_true]
  exact Or.inr rfl

include hne hnames

/-- A pattern selects a path without line feeds exactly if the names of the path can be dealt out to
its names. -/
theorem selects_joined_iff [Platform] (hlines : .scalar '\n' ∉ joined names) :
    selects (joined names) (joined (first :: rest)) = .ok true ↔ Deals first rest names := by
  rw [selects_joined_eq hsegments, Except.ok.injEq, matchesPattern,
    expandBraces_of_none (firstChoice?_joined hsegments), List.any_cons, List.any_nil,
    Bool.or_false, Bool.or_eq_true, beq_iff_eq, Pattern.matches_iff_mem_language _ hlines,
    joined_mem_language_iff hsegments hne hnames]
  -- A path that is the pattern itself is dealt out name by name.
  refine or_iff_right_of_imp fun hsame => ?_
  have hrow : names = first :: rest := by
    rw [← splitSlashes_joined hne hnames, hsame]
    exact splitSlashes_joined (List.cons_ne_nil _ _) fun segment h => (hsegments segment h).slash
  subst hrow
  obtain ⟨hfirst, hrest⟩ := List.forall_mem_cons.mp hsegments
  refine ⟨[first], rest.map ([·]), hfirst.takes_self, ?_, ?_, ?_⟩
  · exact List.forall₂_map_right_iff.mpr (List.forall₂_same.mpr fun s hs => (hrest s hs).takes_self)
  · exact List.forall_mem_map.mpr fun s _ => List.cons_ne_nil s []
  · rw [← List.flatMap_def, List.flatMap_singleton', List.singleton_append]

end Deals

end KeyOrder.Glob
