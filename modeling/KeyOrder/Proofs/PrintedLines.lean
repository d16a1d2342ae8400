import KeyOrder.Proofs.Doubles
import KeyOrder.Proofs.Lexemes
import KeyOrder.Text.Lines
/-!
# Lines of printed documents

A printed document is ink in lines: of the controls below the space it has line feeds only,
and tabs that indent a line, and it ends with one line feed after ink.  So there is nothing
in it that reading a file would change: only a text with carriage returns is read as another
one.
-/

namespace KeyOrder

namespace Json

/-! ## Ink and beginnings of lines -/

/-- A character that is no control below the space. -/
def IsInk (c : Char) : Prop :=
  0x20 ≤ c.toNat

instance : DecidablePred IsInk :=
  fun c => inferInstanceAs (Decidable (0x20 ≤ c.toNat))

/-- A text with ink and beginnings of lines in front of it. -/
inductive PrintedBefore (layout : Layout) (rest : Text) : Text → Prop
  | refl : PrintedBefore layout rest rest
  | ink {c : Char} {text : Text} (hc : IsInk c) (h : PrintedBefore layout rest text) :
      PrintedBefore layout rest (c :: text)
  | line (level : Nat) {text : Text} (h : PrintedBefore layout rest text) :
      PrintedBefore layout rest (layout.newline level text)

section Printed

variable {layout : Layout} {rest text more : Text}

/-- What is printed in front of a text that is printed in front of another one is printed in front
of this one. -/
theorem PrintedBefore.trans (h : PrintedBefore layout rest text)
    (hmore : PrintedBefore layout text more) : PrintedBefore layout rest more := by
  induction hmore with
  | refl => exact h
  | ink hc _ ih => exact .ink hc ih
  | line level _ ih => exact .line level ih

/-- Ink can be printed in front of a text. -/
theorem PrintedBefore.append {front : Text} (hfront : ∀ c ∈ front, IsInk c)
    (h : PrintedBefore layout rest text) : PrintedBefore layout rest (front ++ text) := by
  induction front with
  | nil => exact h
  | cons c front ih =>
      obtain ⟨hc, hfront⟩ := List.forall_mem_cons.mp hfront
      exact .ink hc (ih hfront)

/-- What is printed in front of a text ends with the text. -/
theorem PrintedBefore.exists_front (h : PrintedBefore layout rest text) :
    ∃ front, text = front ++ rest := by
  induction h with
  | refl => exact ⟨[], rfl⟩
  | @ink c _ _ _ ih =>
      obtain ⟨front, rfl⟩ := ih
      exact ⟨c :: front, rfl⟩
  | line level _ ih =>
      obtain ⟨front, rfl⟩ := ih
      refine ⟨'\n' :: ((List.replicate level layout.unit).flatten ++ front), ?_⟩
      rw [Layout.newline, List.cons_append, List.append_assoc]

/-! ## Literals -/

/-- Hexadecimal digits are ink. -/
theorem isInk_of_mem_hexDigits {places n : Nat} : ∀ c ∈ hexDigits places n, IsInk c := by
  have hdigit : ∀ d < 16, IsInk (Nat.digitChar d) := by decide
  induction places generalizing n with
  | zero => exact List.forall_mem_nil _
  | succ places ih =>
      rw [hexDigits, List.forall_mem_append]
      exact ⟨ih, List.forall_mem_singleton.mpr (hdigit _ (Nat.mod_lt n (by decide)))⟩

/-- What the printer writes for a code point is ink. -/
theorem isInk_of_mem_escaped {c : CodePoint} : ∀ d ∈ escaped c, IsInk d := by
  rcases escaped_cases c with ⟨d, e, rfl, htext, hshort⟩ | ⟨unit, -, htext, -⟩ |
    ⟨d, rfl, htext, -, -, hink⟩
  · rw [htext]
    refine List.forall_mem_cons.mpr ⟨by decide, List.forall_mem_singleton.mpr ?_⟩
    unfold shortEscape? at hshort
    split at hshort
    case h_9 => cases hshort
    all_goals decide
  · rw [htext]
    exact List.forall_mem_cons.mpr ⟨by decide, List.forall_mem_cons.mpr
      ⟨by decide, isInk_of_mem_hexDigits⟩⟩
  · rw [htext]
    exact List.forall_mem_singleton.mpr (Nat.not_lt.mp hink)

/-- A printed literal is ink. -/
theorem isInk_of_mem_stringLiteral {s : CodeText} : ∀ c ∈ stringLiteral s, IsInk c := by
  rw [stringLiteral, List.forall_mem_cons, List.forall_mem_append]
  refine ⟨by decide, fun c hc => ?_, List.forall_mem_singleton.mpr (by decide)⟩
  obtain ⟨point, -, hc⟩ := List.mem_flatMap.mp hc
  exact isInk_of_mem_escaped c hc

/-- A spelled numeral is ink. -/
theorem isInk_of_mem_text {n : Numeral} (hn : n.IsSpelled) : ∀ c ∈ n.text, IsInk c := by
  refine Numeral.forall_mem_text hn (fun c hc => ?_) (by simp [IsInk])
  have hdigit : 48 ≤ c.val ∧ c.val ≤ 57 := by simpa [Char.isDigit] using hc
  have hleast : 48 ≤ c.toNat := UInt32.le_iff_toNat_le.mp hdigit.1
  exact le_trans (by decide) hleast

/-! ## Values -/

/-- What is printed for a value ends with ink. -/
def PrintsInk (layout : Layout) (v : Value) : Prop :=
  ∀ level rest, ∃ c, IsInk c ∧ PrintedBefore layout (c :: rest) (printValue layout level v rest)

/-- Some ink ends with ink. -/
theorem exists_printedBefore_append (layout : Layout) {ink : Text} (hne : ink ≠ [])
    (hink : ∀ c ∈ ink, IsInk c) (rest : Text) :
    ∃ c, IsInk c ∧ PrintedBefore layout (c :: rest) (ink ++ rest) := by
  obtain ⟨front, c, rfl⟩ := List.eq_nil_or_concat ink |>.resolve_left hne
  rw [List.concat_eq_append] at hink ⊢
  obtain ⟨hfront, hc⟩ := List.forall_mem_append.mp hink
  refine ⟨c, List.forall_mem_singleton.mp hc, ?_⟩
  rw [List.append_assoc]
  exact PrintedBefore.refl.append hfront

/-- What is printed for a scalar of a document is ink. -/
theorem printsInk_of_isScalar {v : Value} (hv : v.IsScalar) (hdocument : v.IsDocumentScalar) :
    PrintsInk layout v := by
  intro level rest
  cases v with
  | null => exact exists_printedBefore_append layout (by simp) (by simp [IsInk]) rest
  | bool b =>
      cases b with
      | false =>
          exact exists_printedBefore_append layout (by simp [boolLiteral])
            (by simp [boolLiteral, IsInk]) rest
      | true =>
          exact exists_printedBefore_append layout (by simp [boolLiteral])
            (by simp [boolLiteral, IsInk]) rest
  | int z =>
      obtain ⟨n, hspelled, htext, -⟩ := exists_numeral_value_int hdocument
      rw [printValue, ← htext]
      exact exists_printedBefore_append layout (Numeral.text_ne_nil hspelled)
        (isInk_of_mem_text hspelled) rest
  | float x =>
      obtain ⟨negative, m, rfl⟩ := hdocument
      obtain ⟨n, hspelled, htext, -⟩ := exists_numeral_value_float negative m
      rw [printValue, ← htext]
      exact exists_printedBefore_append layout (Numeral.text_ne_nil hspelled)
        (isInk_of_mem_text hspelled) rest
  | str s =>
      exact exists_printedBefore_append layout (List.cons_ne_nil _ _) isInk_of_mem_stringLiteral
        rest
  | _ => exact hv.elim

/-- What is printed for a value is printed in front of what follows. -/
theorem PrintsInk.printedBefore {v : Value} (hv : PrintsInk layout v) (level : Nat)
    (h : PrintedBefore layout rest text) :
    PrintedBefore layout rest (printValue layout level v text) := by
  obtain ⟨c, hc, hprinted⟩ := hv level text
  exact (PrintedBefore.ink hc h).trans hprinted

/-- What is printed for the items after a value is printed in front of what follows. -/
theorem printedBefore_printItems {items : List Value} (h : ∀ v ∈ items, PrintsInk layout v)
    (level : Nat) (htext : PrintedBefore layout rest text) :
    PrintedBefore layout rest (printItems layout level items text) := by
  induction items with
  | nil => rwa [printItems]
  | cons v items ih =>
      obtain ⟨hv, hitems⟩ := List.forall_mem_cons.mp h
      rw [printItems]
      exact .ink (by decide) (.line level (hv.printedBefore level (ih hitems)))

/-- What is printed for a list ends with its bracket. -/
theorem printsInk_list {items : List Value} (h : ∀ v ∈ items, PrintsInk layout v) :
    PrintsInk layout (.list items) := by
  intro level rest
  refine ⟨']', by decide, ?_⟩
  rw [printValue]
  cases items with
  | nil => exact .ink (by decide) .refl
  | cons v items =>
      obtain ⟨hv, hitems⟩ := List.forall_mem_cons.mp h
      rw [printList]
      refine .ink (by decide) (.line (level + 1) (hv.printedBefore (level + 1) ?_))
      exact printedBefore_printItems hitems (level + 1) (.line level .refl)

/-- What is printed for a member is printed in front of what follows. -/
theorem printedBefore_member {v : Value} (hv : PrintsInk layout v) (s : CodeText) (level : Nat)
    (htext : PrintedBefore layout rest text) : PrintedBefore layout rest (layout.newline level
      (keyLiteral (.str s) ++ ':' :: ' ' :: printValue layout level v text)) := by
  refine .line level (.append isInk_of_mem_stringLiteral ?_)
  exact .ink (by decide) (.ink (by decide) (hv.printedBefore level htext))

/-- What is printed for the members after a value is printed in front of what follows. -/
theorem printedBefore_printMembers {members : List (CodeText × Value)}
    (h : ∀ m ∈ members, PrintsInk layout m.2) (level : Nat)
    (htext : PrintedBefore layout rest text) :
    PrintedBefore layout rest (printMembers layout level (stringMembers members) text) := by
  induction members with
  | nil => exact htext
  | cons m members ih =>
      obtain ⟨hm, hmembers⟩ := List.forall_mem_cons.mp h
      rw [stringMembers_cons, printMembers]
      exact .ink (by decide) (printedBefore_member hm m.1 level (ih hmembers))

/-- What is printed for a mapping ends with its brace. -/
theorem printsInk_map {members : List (CodeText × Value)}
    (h : ∀ m ∈ members, PrintsInk layout m.2) :
    PrintsInk layout (.map (stringMembers members)) := by
  intro level rest
  refine ⟨'}', by decide, ?_⟩
  cases members with
  | nil =>
      rw [stringMembers_nil, printValue]
      exact .ink (by decide) .refl
  | cons m members =>
      obtain ⟨hm, hmembers⟩ := List.forall_mem_cons.mp h
      rw [stringMembers_cons, printValue]
      refine .ink (by decide) (printedBefore_member hm m.1 (level + 1) ?_)
      exact printedBefore_printMembers hmembers (level + 1) (.line level .refl)

/-- What is printed for a document value ends with ink. -/
theorem printsInk_of_isDocument {v : Value} (h : v.IsDocument) : PrintsInk layout v := by
  induction h with
  | scalar hscalar hgood => exact printsInk_of_isScalar hscalar hgood
  | list _ ih => exact printsInk_list ih
  | map _ _ _ ih => exact printsInk_map ih

/-! ## Controls -/

/-- Of the controls below the space there are line feeds only, and tabs of an indentation by tabs,
which stand behind a line feed and other tabs. -/
def IsLaidOut (layout : Layout) (text : Text) : Prop :=
  ∀ before c after, text = before ++ c :: after → ¬ IsInk c → c = '\n' ∨
    layout = .tabs ∧ c = '\t' ∧ ∃ lines tabs, before = lines ++ '\n' :: List.replicate tabs '\t'

/-- An indentation is one character again and again, a tab or a space. -/
theorem exists_replicate (layout : Layout) (level : Nat) : ∃ count c,
    (List.replicate level layout.unit).flatten = List.replicate count c ∧
      (IsInk c ∨ layout = .tabs ∧ c = '\t') := by
  cases layout with
  | tabs => exact ⟨level, '\t', by simp [Layout.unit], Or.inr ⟨rfl, rfl⟩⟩
  | spaces more =>
      exact ⟨level * (more + 1), ' ', by simp [Layout.unit], Or.inl (by decide)⟩

/-- Ink in front of a text leaves it laid out. -/
theorem IsLaidOut.cons {c : Char} (h : IsLaidOut layout text) (hc : IsInk c) :
    IsLaidOut layout (c :: text) := by
  intro before d after heq hd
  cases before with
  | nil =>
      obtain ⟨rfl, -⟩ := List.cons.inj heq
      exact absurd hc hd
  | cons first before =>
      obtain ⟨rfl, htail⟩ := List.cons.inj heq
      refine (h before d after htail hd).imp_right ?_
      rintro ⟨htabs, htab, lines, tabs, rfl⟩
      exact ⟨htabs, htab, c :: lines, tabs, rfl⟩

/-- The beginning of a line in front of a text leaves it laid out. -/
theorem IsLaidOut.newline (h : IsLaidOut layout text) (level : Nat) :
    IsLaidOut layout (layout.newline level text) := by
  intro before c after heq hc
  obtain ⟨count, unit, hunit, hkind⟩ := exists_replicate layout level
  rw [Layout.newline, hunit] at heq
  cases before with
  | nil => exact Or.inl (List.cons.inj heq).1.symm
  | cons first before =>
      obtain ⟨rfl, htail⟩ := List.cons.inj heq
      rcases List.append_eq_append_iff.mp htail with ⟨more, rfl, htext⟩ | ⟨more, hindent, hrest⟩
      · -- It stands in the text behind the indentation.
        refine (h more c after htext hc).imp_right ?_
        rintro ⟨htabs, htab, lines, tabs, rfl⟩
        refine ⟨htabs, htab, '\n' :: (List.replicate count unit ++ lines), tabs, ?_⟩
        rw [List.cons_append, List.append_assoc]
      · cases more with
        | nil =>
            -- The text behind the indentation starts with it.
            refine (h [] c after hrest.symm hc).imp_right ?_
            rintro ⟨-, -, lines, tabs, hnil⟩
            exact absurd hnil (by simp)
        | cons d more =>
            obtain ⟨rfl, -⟩ := List.cons.inj hrest
            obtain ⟨-, hbefore, hmore⟩ := List.append_eq_replicate_iff.mp hindent.symm
            obtain rfl : c = unit := List.eq_of_mem_replicate (hmore ▸ List.mem_cons_self)
            obtain ⟨htabs, rfl⟩ := hkind.resolve_left hc
            exact Or.inr ⟨htabs, rfl, [], before.length, congrArg ('\n' :: ·) hbefore⟩

/-- What is printed in front of a laid out text is laid out. -/
theorem PrintedBefore.isLaidOut (h : PrintedBefore layout rest text)
    (hrest : IsLaidOut layout rest) : IsLaidOut layout text := by
  induction h with
  | refl => exact hrest
  | ink hc _ ih => exact ih.cons hc
  | line level _ ih => exact ih.newline level

/-- A text that is laid out has no carriage returns. -/
theorem IsLaidOut.return_not_mem (h : IsLaidOut layout text) : '\r' ∉ text := by
  intro hmem
  obtain ⟨before, after, rfl⟩ := List.append_of_mem hmem
  rcases h before '\r' after rfl (by decide) with hfeed | ⟨-, htab, -⟩
  · exact absurd hfeed (by decide)
  · exact absurd htab (by decide)

end Printed

/-- A printed document is laid out, and one line feed ends it after ink. -/
theorem isLaidOut_printDocument (layout : Layout) {v : Value} (hv : v.IsDocument) :
    IsLaidOut layout (printDocument layout v) ∧
      ∃ front c, printDocument layout v = front ++ [c, '\n'] ∧ IsInk c := by
  have hprints : PrintsInk layout v := printsInk_of_isDocument hv
  obtain ⟨c, hc, hprinted⟩ := hprints 0 ['\n']
  have hend : IsLaidOut layout ['\n'] := by
    intro before d after heq _
    obtain ⟨rfl, rfl, -⟩ : before = [] ∧ d = '\n' ∧ after = [] := by
      simpa [eq_comm] using List.singleton_eq_append_iff.mp heq
    exact Or.inl rfl
  obtain ⟨front, hfront⟩ := hprinted.exists_front
  exact ⟨hprinted.isLaidOut (hend.cons hc), front, c, hfront, hc⟩

end Json

/-! ## Line ends -/

/-- No carriage return is read. -/
theorem return_not_mem_unifyLineEnds (text : Text) : '\r' ∉ unifyLineEnds text := by
  fun_induction unifyLineEnds text with
  | case1 rest ih => exact List.not_mem_cons_of_ne_of_not_mem (by decide) ih
  | case2 rest _ ih => exact List.not_mem_cons_of_ne_of_not_mem (by decide) ih
  | case3 c rest _ hc ih => exact List.not_mem_cons_of_ne_of_not_mem (fun h => hc h.symm) ih
  | case4 => exact List.not_mem_nil

/-- A text is read as it is exactly if it has no carriage returns. -/
theorem unifyLineEnds_eq_self_iff {text : Text} : unifyLineEnds text = text ↔ '\r' ∉ text := by
  refine ⟨fun h => h ▸ return_not_mem_unifyLineEnds text, fun h => ?_⟩
  fun_induction unifyLineEnds text with
  | case1 => exact absurd List.mem_cons_self h
  | case2 => exact absurd List.mem_cons_self h
  | case3 c rest _ _ ih => rw [ih fun hrest => h (List.mem_cons_of_mem c hrest)]
  | case4 => rfl

end KeyOrder
