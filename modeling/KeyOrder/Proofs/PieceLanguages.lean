import KeyOrder.Glob.Pattern
import Mathlib.Computability.Language
/-!
# What pieces of a pattern take

Each piece of a path pattern stands for a language, and a row of pieces for the product of
these languages.  The table of ends that a match goes through tells exactly which ends of the
path the rest of the row takes, so a path without line feeds is matched exactly if it can be
cut into one part for each piece.
-/

namespace KeyOrder.Glob

/-! ## Tables of ends -/

section Ends

variable {α : Type} {allowed last : α → Bool} {L : Language α}

/-- The texts of allowed characters. -/
def many (allowed : α → Bool) : Language α :=
  {s : List α | ∀ c ∈ s, allowed c = true}

/-- The texts of one allowed character. -/
def single (allowed : α → Bool) : Language α :=
  {s : List α | ∃ c, allowed c = true ∧ s = [c]}

/-- The empty text has no character that is not allowed. -/
theorem nil_mem_many_mul : [] ∈ many allowed * L ↔ [] ∈ L := by
  rw [Language.mem_mul]
  constructor
  · rintro ⟨part, -, rest, hrest, heq⟩
    rw [(List.append_eq_nil_iff.mp heq).2] at hrest
    exact hrest
  · intro h
    exact ⟨[], fun c hc => (List.not_mem_nil hc).elim, [], h, rfl⟩

/-- Allowed characters are taken from the start of a text, or none of them is. -/
theorem cons_mem_many_mul {c : α} {text : List α} :
    c :: text ∈ many allowed * L ↔
      c :: text ∈ L ∨ allowed c = true ∧ text ∈ many allowed * L := by
  rw [Language.mem_mul, Language.mem_mul]
  constructor
  · rintro ⟨part, hpart, rest, hrest, heq⟩
    cases part with
    | nil =>
        rw [List.nil_append] at heq
        exact Or.inl (heq ▸ hrest)
    | cons d part =>
        obtain ⟨rfl, rfl⟩ := List.cons.inj heq
        obtain ⟨hd, hpart⟩ := List.forall_mem_cons.mp hpart
        exact Or.inr ⟨hd, part, hpart, rest, hrest, rfl⟩
  · rintro (h | ⟨hc, part, hpart, rest, hrest, rfl⟩)
    · exact ⟨[], fun d hd => (List.not_mem_nil hd).elim, c :: text, h, rfl⟩
    · exact ⟨c :: part, List.forall_mem_cons.mpr ⟨hc, hpart⟩, rest, hrest, rfl⟩

/-- No character can be taken from the empty text. -/
theorem nil_not_mem_single_mul : [] ∉ single allowed * L := by
  rw [Language.mem_mul]
  rintro ⟨part, ⟨c, -, rfl⟩, rest, -, heq⟩
  cases heq

/-- One allowed character is taken from the start of a text. -/
theorem cons_mem_single_mul {c : α} {text : List α} :
    c :: text ∈ single allowed * L ↔ allowed c = true ∧ text ∈ L := by
  rw [Language.mem_mul]
  constructor
  · rintro ⟨part, ⟨d, hd, rfl⟩, rest, hrest, heq⟩
    obtain ⟨rfl, rfl⟩ := List.cons.inj heq
    exact ⟨hd, hrest⟩
  · rintro ⟨hc, htext⟩
    exact ⟨[c], ⟨c, hc, rfl⟩, text, htext, rfl⟩

/-- A table tells of each end of a text whether it belongs to a language. -/
inductive Marks (L : Language α) : List α → Ends → Prop
  | nil {b : Bool} (h : b = true ↔ [] ∈ L) : Marks L [] [b]
  | cons {b : Bool} {c : α} {text : List α} {ends : Ends} (h : b = true ↔ c :: text ∈ L)
      (htext : Marks L text ends) : Marks L (c :: text) (b :: ends)

/-- A table tells whether the whole text belongs to the language. -/
theorem Marks.whole_iff {text : List α} {ends : Ends} (h : Marks L text ends) :
    whole ends = true ↔ text ∈ L := by
  cases h with
  | nil h => exact h
  | cons h _ => exact h

/-- The table of a test tells which ends pass it. -/
theorem marks_endsOf (taken : List α → Bool) (text : List α) :
    Marks {s : List α | taken s = true} text (endsOf taken text) := by
  induction text with
  | nil => exact .nil Iff.rfl
  | cons c text ih => exact .cons Iff.rfl ih

/-- The table for allowed characters before the rest of a pattern. -/
theorem Marks.takeAny {text : List α} {ends : Ends} (h : Marks L text ends) :
    Marks (many allowed * L) text (takeAny allowed text ends) := by
  induction h with
  | nil h => exact .nil (h.trans nil_mem_many_mul.symm)
  | cons h _ ih =>
      refine .cons ?_ ih
      rw [Bool.or_eq_true, Bool.and_eq_true, h, ih.whole_iff, cons_mem_many_mul]

/-- The table for one allowed character before the rest of a pattern. -/
theorem Marks.takeOne {text : List α} {ends : Ends} (h : Marks L text ends) :
    Marks (single allowed * L) text (takeOne allowed text ends) := by
  induction h with
  | nil _ => exact .nil (iff_of_false Bool.false_ne_true nil_not_mem_single_mul)
  | cons _ htext ih =>
      refine .cons ?_ ih
      rw [Bool.and_eq_true, htext.whole_iff, cons_mem_single_mul]

/-- The table for allowed characters up to and with a last one before the rest of a pattern. -/
theorem Marks.takeThrough {text : List α} {ends : Ends} (h : Marks L text ends) :
    Marks (many allowed * (single last * L)) text (takeThrough last allowed text ends) := by
  induction h with
  | nil _ =>
      refine .nil (iff_of_false Bool.false_ne_true ?_)
      rw [nil_mem_many_mul]
      exact nil_not_mem_single_mul
  | cons _ htext ih =>
      refine .cons ?_ ih
      rw [Bool.or_eq_true, Bool.and_eq_true, Bool.and_eq_true, htext.whole_iff, ih.whole_iff,
        cons_mem_many_mul, cons_mem_single_mul]

end Ends

/-! ## What pieces take -/

/-- What a piece takes of any path, line feeds included. -/
def Piece.taken : Piece → Language CodePoint
  | anything => many (· != .scalar '\n')
  | withinName => many (· != .scalar '/')
  | oneInName => single (· != .scalar '/')
  | literal c => single (· == c)

/-- What may be left at the end of a pattern. -/
def ending : Language CodePoint :=
  {s : CodeText | atEnd s = true}

/-- What is left of a path at the end of a pattern is nothing, or a line feed. -/
theorem mem_ending {s : CodeText} : s ∈ ending ↔ s = [] ∨ s = [.scalar '\n'] := by
  show atEnd s = true ↔ _
  unfold atEnd
  split
  · exact iff_of_true rfl (Or.inl rfl)
  · exact iff_of_true rfl (Or.inr rfl)
  · next hnil hline => exact iff_of_false Bool.false_ne_true (not_or.mpr ⟨hnil, hline⟩)

/-- The table of a row of pieces tells which ends the row takes. -/
theorem marks_takePieces (pieces : List Piece) (path : CodeText) :
    Marks ((pieces.map Piece.taken).prod * ending) path (takePieces pieces path) := by
  -- The table of the rest is made before that of a piece, so the induction is along the row.
  induction pieces with
  | nil =>
      rw [List.map_nil, List.prod_nil, one_mul]
      exact marks_endsOf atEnd path
  | cons piece pieces ih =>
      rw [List.map_cons, List.prod_cons, mul_assoc]
      cases piece with
      | anything => exact ih.takeAny
      | withinName => exact ih.takeAny
      | oneInName => exact ih.takeOne
      | literal c => exact ih.takeOne

/-- What a pattern takes of any path, line feeds included. -/
def Pattern.taken (pattern : Pattern) : Language CodePoint :=
  (if pattern.anyDirectory then 1 + many (· != .scalar '\n') * single (· == .scalar '/') else 1) *
    ((pattern.pieces.map Piece.taken).prod * ending)

/-- A pattern matches what it takes. -/
theorem Pattern.matches_iff (pattern : Pattern) (path : CodeText) :
    pattern.matches path = true ↔ path ∈ pattern.taken := by
  have hpieces := marks_takePieces pattern.pieces path
  rw [Pattern.matches, Bool.or_eq_true, Bool.and_eq_true, hpieces.whole_iff,
    hpieces.takeThrough.whole_iff, Pattern.taken]
  cases pattern.anyDirectory with
  | false => rw [if_neg Bool.false_ne_true, one_mul, or_iff_left fun h => Bool.false_ne_true h.1]
  | true =>
      rw [if_pos rfl, add_mul, one_mul, mul_assoc, Language.mem_add, and_iff_right rfl]

/-! ## Declared meaning -/

/-- The texts that a piece stands for. -/
def Piece.language : Piece → Language CodePoint
  | anything => ⊤
  | withinName => {s : CodeText | .scalar '/' ∉ s}
  | oneInName => {s : CodeText | ∃ c, c ≠ .scalar '/' ∧ s = [c]}
  | literal c => {[c]}

/-- The texts that two stars and a slash at the very start stand for: nothing, or what ends in a
slash. -/
def anyDirectories : Language CodePoint :=
  {s : CodeText | s = [] ∨ ∃ directory, s = directory ++ [.scalar '/']}

/-- The texts that a pattern stands for: one part for each of its pieces, one after the other. -/
def Pattern.language (pattern : Pattern) : Language CodePoint :=
  (if pattern.anyDirectory then anyDirectories else 1) * (pattern.pieces.map Piece.language).prod

/-- Languages with the same texts without a character. -/
def AgreeWithout (c : CodePoint) (L L' : Language CodePoint) : Prop :=
  ∀ s : CodeText, c ∉ s → (s ∈ L ↔ s ∈ L')

/-- The parts of a text without a character have none. -/
theorem AgreeWithout.mul {c : CodePoint} {L L' M M' : Language CodePoint}
    (hL : AgreeWithout c L L') (hM : AgreeWithout c M M') : AgreeWithout c (L * M) (L' * M') := by
  intro s hs
  rw [Language.mem_mul, Language.mem_mul]
  constructor
  · rintro ⟨part, hpart, rest, hrest, rfl⟩
    obtain ⟨hfree, hfree'⟩ := not_or.mp (mt List.mem_append.mpr hs)
    exact ⟨part, (hL part hfree).mp hpart, rest, (hM rest hfree').mp hrest, rfl⟩
  · rintro ⟨part, hpart, rest, hrest, rfl⟩
    obtain ⟨hfree, hfree'⟩ := not_or.mp (mt List.mem_append.mpr hs)
    exact ⟨part, (hL part hfree).mpr hpart, rest, (hM rest hfree').mpr hrest, rfl⟩

/-- A language agrees with itself. -/
theorem AgreeWithout.refl (c : CodePoint) (L : Language CodePoint) : AgreeWithout c L L :=
  fun _ _ => Iff.rfl

/-- On texts without line feeds a piece takes what it stands for. -/
theorem Piece.agreeOnLines (piece : Piece) :
    AgreeWithout (.scalar '\n') piece.taken piece.language := by
  intro s hs
  cases piece with
  | anything =>
      refine iff_of_true (fun c hc => ?_) trivial
      rw [bne_iff_ne]
      rintro rfl
      exact hs hc
  | withinName =>
      show (∀ c ∈ s, (c != .scalar '/') = true) ↔ .scalar '/' ∉ s
      simp only [bne_iff_ne]
      exact ⟨fun h hmem => h _ hmem rfl, fun h c hc heq => h (heq ▸ hc)⟩
  | oneInName =>
      show (∃ c, (c != .scalar '/') = true ∧ s = [c]) ↔ ∃ c, c ≠ .scalar '/' ∧ s = [c]
      simp only [bne_iff_ne]
  | literal c =>
      show (∃ d, (d == c) = true ∧ s = [d]) ↔ s = [c]
      simp only [beq_iff_eq, exists_eq_left]

/-- A row of pieces takes what it stands for. -/
theorem agreeOnLines_prod (pieces : List Piece) : AgreeWithout (.scalar '\n')
    (pieces.map Piece.taken).prod (pieces.map Piece.language).prod := by
  induction pieces with
  | nil => exact .refl _ 1
  | cons piece pieces ih =>
      rw [List.map_cons, List.map_cons, List.prod_cons, List.prod_cons]
      exact piece.agreeOnLines.mul ih

/-- Without line feeds nothing is passed over at the end. -/
theorem agreeOnLines_ending : AgreeWithout (.scalar '\n') ending 1 := by
  intro s hs
  rw [Language.mem_one, mem_ending]
  refine or_iff_left ?_
  rintro rfl
  exact hs List.mem_cons_self

/-- The directories in front are taken up to their last slash. -/
theorem agreeOnLines_anyDirectories : AgreeWithout (.scalar '\n')
    (1 + many (· != .scalar '\n') * single (· == .scalar '/')) anyDirectories := by
  intro s hs
  rw [Language.mem_add, Language.mem_one, Language.mem_mul]
  refine or_congr_right ?_
  constructor
  · rintro ⟨directory, -, _, ⟨c, hc, rfl⟩, rfl⟩
    rw [beq_iff_eq.mp hc]
    exact ⟨directory, rfl⟩
  · rintro ⟨directory, rfl⟩
    refine ⟨directory, fun c hc => ?_, _, ⟨_, beq_self_eq_true _, rfl⟩, rfl⟩
    rw [bne_iff_ne]
    rintro rfl
    exact hs (List.mem_append_left _ hc)

/-- A pattern matches a path without line feeds exactly if it stands for it. -/
theorem Pattern.matches_iff_mem_language (pattern : Pattern) {path : CodeText}
    (hpath : .scalar '\n' ∉ path) : pattern.matches path = true ↔ path ∈ pattern.language := by
  have hrow := (agreeOnLines_prod pattern.pieces).mul agreeOnLines_ending
  rw [mul_one] at hrow
  rw [pattern.matches_iff, Pattern.taken, Pattern.language]
  cases pattern.anyDirectory with
  | false => exact (AgreeWithout.refl _ 1).mul hrow path hpath
  | true => exact agreeOnLines_anyDirectories.mul hrow path hpath

end KeyOrder.Glob
