import KeyOrder.Proofs.Detection
/-!
# The one way to cut a text

What string literals and comments are can be said without a reader: a literal ends at its
first quote that is not escaped, a line comment at the end of its line, a block comment
at the first star and slash after its start, and all of them at the latest with the text.
Every text is cut in exactly one way, and its comments are what is removed from it.
Nothing that is joined by removing them reads as a comment again.
-/

namespace KeyOrder.Comment

/-! ## Cuts -/

/-- A part of a literal after which the literal is open and no escape is pending: characters that
are neither quotes nor backslashes, and escaped characters of any kind. -/
inductive IsOpen : Text → Prop
  | nil : IsOpen []
  | plain {c : Char} {part : Text} (hquote : c ≠ '"') (hslash : c ≠ '\\') (h : IsOpen part) :
      IsOpen (c :: part)
  | escape (c : Char) {part : Text} (h : IsOpen part) : IsOpen ('\\' :: c :: part)

/-- A text is cut into a row of segments. -/
inductive Cuts : Text → List Segment → Prop
  | nil : Cuts [] []
  /-- Outside of literals and comments there is no quote, and no slash with another one or with a
  star right after it. -/
  | code {c : Char} {rest : Text} {row : List Segment} (hquote : c ≠ '"')
      (hslash : c = '/' → ∀ d ∈ rest.head?, d ≠ '/' ∧ d ≠ '*') (h : Cuts rest row) :
      Cuts (c :: rest) (.code c :: row)
  | literal {body rest : Text} {row : List Segment} (hbody : IsOpen body) (h : Cuts rest row) :
      Cuts ('"' :: (body ++ '"' :: rest)) (.literal ('"' :: (body ++ ['"'])) :: row)
  /-- A literal that is never closed; a backslash may be the last character of the text. -/
  | openLiteral {body : Text}
      (hbody : IsOpen body ∨ ∃ part, IsOpen part ∧ body = part ++ ['\\']) :
      Cuts ('"' :: body) [.literal ('"' :: body)]
  | line {body rest : Text} {row : List Segment} (hbody : '\n' ∉ body)
      (hrest : ∀ c ∈ rest.head?, c = '\n') (h : Cuts rest row) :
      Cuts ('/' :: '/' :: (body ++ rest)) (.line ('/' :: '/' :: body) :: row)
  | block {body rest : Text} {row : List Segment} (hbody : ¬ ['*', '/'] <:+: body)
      (h : Cuts rest row) :
      Cuts ('/' :: '*' :: (body ++ '*' :: '/' :: rest))
        (.block ('/' :: '*' :: (body ++ ['*', '/'])) :: row)
  /-- A block comment that is never closed. -/
  | openBlock {body : Text} (hbody : ¬ ['*', '/'] <:+: body) :
      Cuts ('/' :: '*' :: body) [.block ('/' :: '*' :: body)]

/-! ## Ends of literals and blocks -/

/-- A literal that is open goes on with what follows. -/
theorem IsOpen.cutLiteral_append {part : Text} (h : IsOpen part) (more : Text) :
    cutLiteral (part ++ more) = (part ++ (cutLiteral more).1, (cutLiteral more).2) := by
  induction h with
  | nil => rfl
  | plain hquote hslash _ ih => rw [List.cons_append, cutLiteral_cons hquote hslash, ih]; rfl
  | escape c _ ih => rw [List.cons_append, List.cons_append, cutLiteral, ih]; rfl

/-- A literal is cut at its first quote that is not escaped, or it is the whole text. -/
theorem cutLiteral_cases (text : Text) :
    (∃ body rest, IsOpen body ∧ text = body ++ '"' :: rest ∧
      cutLiteral text = (body ++ ['"'], rest)) ∨
    (IsOpen text ∨ ∃ part, IsOpen part ∧ text = part ++ ['\\']) ∧ cutLiteral text = (text, []) := by
  fun_induction cutLiteral text with
  | case1 => exact Or.inr ⟨Or.inl .nil, rfl⟩
  | case2 rest => exact Or.inl ⟨[], rest, .nil, rfl, rfl⟩
  | case3 c rest ih =>
      rcases ih with ⟨body, after, hbody, rfl, hcut⟩ | ⟨hopen, hcut⟩
      · exact Or.inl ⟨'\\' :: c :: body, after, .escape c hbody, rfl, by rw [hcut]; rfl⟩
      · refine Or.inr ⟨?_, by rw [hcut]⟩
        rcases hopen with hopen | ⟨part, hopen, rfl⟩
        · exact Or.inl (.escape c hopen)
        · exact Or.inr ⟨'\\' :: c :: part, .escape c hopen, rfl⟩
  | case4 c rest hquote hescape ih =>
      by_cases hslash : c = '\\'
      · -- A backslash that escapes nothing is the last character of the text.
        cases rest with
        | nil =>
            subst hslash
            exact Or.inr ⟨Or.inr ⟨[], .nil, rfl⟩, rfl⟩
        | cons d tail => exact absurd rfl (hescape d tail hslash)
      · have hc : c ≠ '"' := fun h => hquote h
        rcases ih with ⟨body, after, hbody, rfl, hcut⟩ | ⟨hopen, hcut⟩
        · exact Or.inl ⟨c :: body, after, .plain hc hslash hbody, rfl, by rw [hcut]; rfl⟩
        · refine Or.inr ⟨?_, by rw [hcut]⟩
          rcases hopen with hopen | ⟨part, hopen, rfl⟩
          · exact Or.inl (.plain hc hslash hopen)
          · exact Or.inr ⟨c :: part, .plain hc hslash hopen, rfl⟩

/-- A block comment goes on in front of what does not end it. -/
theorem cutBlock_cons {c : Char} {text : Text} (h : ¬ ['*', '/'] <+: c :: text) :
    cutBlock (c :: text) = (c :: (cutBlock text).1, (cutBlock text).2) := by
  rw [cutBlock.eq_def]
  split
  · next heq => cases heq
  · next rest heq =>
    rw [heq] at h
    exact absurd (List.prefix_append ['*', '/'] rest) h
  · next heq =>
    obtain ⟨rfl, rfl⟩ := List.cons.inj heq
    rfl

/-- A block comment is cut after its first star and slash. -/
theorem cutBlock_append_of_not_infix {body : Text} (h : ¬ ['*', '/'] <:+: body) (rest : Text) :
    cutBlock (body ++ '*' :: '/' :: rest) = (body ++ ['*', '/'], rest) := by
  induction body with
  | nil => rfl
  | cons c body ih =>
      obtain ⟨hstart, hbody⟩ := not_or.mp (mt List.infix_cons_iff.mpr h)
      have hstart' : ¬ ['*', '/'] <+: c :: (body ++ '*' :: '/' :: rest) := by
        cases body with
        | nil => simp
        | cons d body => simpa using hstart
      rw [List.cons_append, cutBlock_cons hstart', ih hbody]
      rfl

/-- A block comment without star and slash is the whole text. -/
theorem cutBlock_of_not_infix {body : Text} (h : ¬ ['*', '/'] <:+: body) :
    cutBlock body = (body, []) := by
  induction body with
  | nil => rfl
  | cons c body ih =>
      obtain ⟨hstart, hbody⟩ := not_or.mp (mt List.infix_cons_iff.mpr h)
      rw [cutBlock_cons hstart, ih hbody]

/-- A block comment is cut after its first star and slash, or it is the whole text. -/
theorem cutBlock_cases (text : Text) :
    (∃ body rest, ¬ ['*', '/'] <:+: body ∧ text = body ++ '*' :: '/' :: rest ∧
      cutBlock text = (body ++ ['*', '/'], rest)) ∨
    ¬ ['*', '/'] <:+: text ∧ cutBlock text = (text, []) := by
  fun_induction cutBlock text with
  | case1 => exact Or.inr ⟨by simp, rfl⟩
  | case2 rest => exact Or.inl ⟨[], rest, by simp, rfl, rfl⟩
  | case3 c rest hend ih =>
      have hstart : ¬ ['*', '/'] <+: c :: rest := by
        rintro ⟨tail, heq⟩
        obtain ⟨rfl, rfl⟩ := List.cons.inj heq
        exact hend tail rfl rfl
      rcases ih with ⟨body, after, hbody, rfl, hcut⟩ | ⟨hnone, hcut⟩
      · refine Or.inl ⟨c :: body, after, ?_, rfl, by rw [hcut]; rfl⟩
        rw [List.infix_cons_iff]
        refine not_or.mpr ⟨fun hprefix => hstart ?_, hbody⟩
        exact hprefix.trans (List.prefix_append (c :: body) ('*' :: '/' :: after))
      · refine Or.inr ⟨?_, by rw [hcut]⟩
        rw [List.infix_cons_iff]
        exact not_or.mpr ⟨hstart, hnone⟩

/-! ## One cut for each text -/

/-- A character outside of literals and comments is a segment of its own. -/
theorem segments_cons {c : Char} {rest : Text} (hquote : c ≠ '"')
    (hslash : c = '/' → ∀ d ∈ rest.head?, d ≠ '/' ∧ d ≠ '*') :
    segments (c :: rest) = .code c :: segments rest := by
  rw [segments]
  · exact fun h => hquote h
  · rintro tail rfl rfl
    exact (hslash rfl '/' rfl).1 rfl
  · rintro tail rfl rfl
    exact (hslash rfl '*' rfl).2 rfl

/-- Every text can be cut. -/
theorem cuts_segments (text : Text) : Cuts text (segments text) := by
  fun_induction segments text with
  | case1 => exact .nil
  | case2 rest ih =>
      rcases cutLiteral_cases rest with ⟨body, after, hbody, rfl, hcut⟩ | ⟨hopen, hcut⟩
      · rw [hcut] at ih ⊢
        exact .literal hbody ih
      · rw [hcut, segments]
        exact .openLiteral hopen
  | case3 rest ih =>
      have hline : '\n' ∉ rest.takeWhile (· != '\n') := by
        intro h
        simpa using List.mem_takeWhile_imp h
      have hend : ∀ c ∈ (rest.dropWhile (· != '\n')).head?, c = '\n' := by
        intro c hc
        have hnot := List.head?_dropWhile_not (· != '\n') rest
        rw [hc] at hnot
        simpa using hnot
      conv => lhs; rw [← List.takeWhile_append_dropWhile (p := (· != '\n')) (l := rest)]
      exact .line hline hend ih
  | case4 rest ih =>
      rcases cutBlock_cases rest with ⟨body, after, hbody, rfl, hcut⟩ | ⟨hnone, hcut⟩
      · rw [hcut] at ih ⊢
        exact .block hbody ih
      · rw [hcut, segments]
        exact .openBlock hnone
  | case5 c rest hquote hline hblock ih =>
      refine .code hquote ?_ ih
      rintro rfl d hd
      obtain ⟨tail, rfl⟩ : ∃ tail, rest = d :: tail := List.head?_eq_some_iff.mp hd
      constructor
      · rintro rfl
        exact hline tail rfl rfl
      · rintro rfl
        exact hblock tail rfl rfl

/-- No text can be cut in another way. -/
theorem Cuts.eq_segments {text : Text} {row : List Segment} (h : Cuts text row) :
    row = segments text := by
  induction h with
  | nil => rw [segments]
  | code hquote hslash _ ih => rw [segments_cons hquote hslash, ih]
  | @literal body rest row hbody _ ih =>
      have hcut : cutLiteral (body ++ '"' :: rest) = (body ++ ['"'], rest) :=
        hbody.cutLiteral_append ('"' :: rest)
      rw [segments, hcut, ih]
  | @openLiteral body hbody =>
      have hcut : cutLiteral body = (body, []) := by
        rcases hbody with hbody | ⟨part, hpart, rfl⟩
        · have h := hbody.cutLiteral_append []
          simpa [cutLiteral] using h
        · exact hpart.cutLiteral_append ['\\']
      rw [segments, hcut, segments]
  | @line body rest row hbody hrest _ ih =>
      have hall : ∀ c ∈ body, (c != '\n') = true := fun c hc => by
        rw [bne_iff_ne]
        rintro rfl
        exact hbody hc
      have hfeed : rest.takeWhile (· != '\n') = [] ∧ rest.dropWhile (· != '\n') = rest := by
        cases rest with
        | nil => exact ⟨rfl, rfl⟩
        | cons c rest =>
            obtain rfl := hrest c rfl
            exact ⟨rfl, rfl⟩
      rw [segments, List.takeWhile_append_of_pos hall, List.dropWhile_append_of_pos hall, hfeed.1,
        hfeed.2, List.append_nil, ih]
  | block hbody _ ih => rw [segments, cutBlock_append_of_not_infix hbody, ih]
  | openBlock hbody => rw [segments, cutBlock_of_not_infix hbody, segments]

/-! ## What is left of a cut text -/

/-- The first character that is kept is the first character, unless that is a slash. -/
theorem Cuts.head?_kept {text : Text} {row : List Segment} (h : Cuts text row)
    (hhead : ∀ c ∈ text.head?, c ≠ '/') :
    ((kept row).flatMap Segment.text).head? = text.head? := by
  cases h with
  | nil => rfl
  | code _ _ _ => rfl
  | literal _ _ => rfl
  | openLiteral _ => rfl
  | line _ _ _ => exact absurd rfl (hhead '/' rfl)
  | block _ _ => exact absurd rfl (hhead '/' rfl)
  | openBlock _ => exact absurd rfl (hhead '/' rfl)

/-- What is kept is cut as it was: a slash that is kept never stood right in front of a comment. -/
theorem Cuts.kept {text : Text} {row : List Segment} (h : Cuts text row) :
    Cuts ((kept row).flatMap Segment.text) (kept row) := by
  induction h with
  | nil => exact .nil
  | @code c rest row hquote hslash hrest ih =>
      refine .code hquote (fun hc d hd => hslash hc d ?_) ih
      rwa [← hrest.head?_kept fun e he => (hslash hc e he).1]
  | literal hbody _ ih =>
      have hcut := Cuts.literal hbody ih
      simpa [Comment.kept, Segment.isComment, Segment.text] using hcut
  | openLiteral hbody =>
      have hcut := Cuts.openLiteral hbody
      simpa [Comment.kept, Segment.isComment, Segment.text] using hcut
  | line _ _ _ ih => exact ih
  | block _ _ ih => exact ih
  | openBlock _ => exact .nil

/-- Removing comments leaves the other segments in their order. -/
theorem strip_eq_kept (text : Text) :
    strip text = (kept (segments text)).flatMap Segment.text := by
  rw [strip_eq_filled, ← filled_kept [],
    filled_of_not_isComment [] fun _ => not_isComment_of_mem_kept]

/-- Every text is cut in exactly one way.  Removing its comments leaves the other segments in their
order, and they are how the remaining text is cut; so it has no comments, and removing comments from
it leaves it as it is. -/
theorem exists_cut_of_strip (text : Text) :
    ∃ row, (∀ row', Cuts text row' ↔ row' = row) ∧
      strip text = (kept row).flatMap Segment.text ∧
      Cuts (strip text) (kept row) ∧
      strip (strip text) = strip text := by
  have hunique : ∀ row', Cuts text row' ↔ row' = segments text := fun row' =>
    ⟨Cuts.eq_segments, fun h => h ▸ cuts_segments text⟩
  have hcut : Cuts (strip text) (kept (segments text)) := by
    rw [strip_eq_kept]
    exact (cuts_segments text).kept
  refine ⟨segments text, hunique, strip_eq_kept text, hcut, ?_⟩
  calc strip (strip text)
      = filled [] (segments (strip text)) := strip_eq_filled _
    _ = filled [] (kept (segments text)) := by rw [hcut.eq_segments]
    _ = filled [] (segments text) := filled_kept [] _
    _ = strip text := (strip_eq_filled text).symm

end KeyOrder.Comment
