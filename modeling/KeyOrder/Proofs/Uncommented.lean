import KeyOrder.Comment.Detect
import KeyOrder.Proofs.Doubles
import KeyOrder.Proofs.Lexemes
/-!
# Printed documents hold no comments

After the string literals of a printed document are emptied no slash is left, so the
document is never taken to hold comments, whatever its strings are.
-/

namespace KeyOrder

namespace Comment

/-! ## Texts without slashes -/

/-- No slash is left after all string literals are emptied. -/
def Uncommented (text : Text) : Prop :=
  '/' ∉ emptyLiterals text

/-- Comments start with a slash. -/
theorem hasMarker_of_not_mem {text : Text} (h : '/' ∉ text) : hasMarker text = false := by
  fun_induction hasMarker text with
  | case1 => exact absurd List.mem_cons_self h
  | case2 => exact absurd List.mem_cons_self h
  | case3 c rest _ _ ih => exact ih fun hrest => h (List.mem_cons_of_mem c hrest)
  | case4 => rfl

/-- A text without slashes outside literals is not taken to hold comments. -/
theorem Uncommented.detect {text : Text} (h : Uncommented text) : detect text = false :=
  hasMarker_of_not_mem h

/-- Characters that are neither quotes nor slashes. -/
def IsPlain (text : Text) : Prop :=
  ∀ c ∈ text, c ≠ '"' ∧ c ≠ '/'

/-- A text is plain if a look at all of its characters says so. -/
theorem isPlain_of_all {text : Text} (h : (text.all fun c => c != '"' && c != '/') = true) :
    IsPlain text := by
  intro c hc
  simpa using List.all_eq_true.mp h c hc

/-- A text stays without slashes if one more character is put in front. -/
theorem Uncommented.cons {c : Char} {rest : Text} (hrest : Uncommented rest)
    (hc : c ≠ '"' ∧ c ≠ '/') : Uncommented (c :: rest) := by
  unfold Uncommented
  rw [emptyLiterals, if_neg hc.1, List.mem_cons, not_or]
  exact ⟨hc.2.symm, hrest⟩

/-- A text stays without slashes if plain characters are put in front. -/
theorem Uncommented.append {plain rest : Text} (hrest : Uncommented rest) (h : IsPlain plain) :
    Uncommented (plain ++ rest) := by
  induction plain with
  | nil => exact hrest
  | cons c plain ih =>
      obtain ⟨hc, hplain⟩ := List.forall_mem_cons.mp h
      exact (ih hplain).cons hc

/-! ## Literals -/

/-- A character that is neither a quote nor a backslash leaves a literal open. -/
theorem afterLiteral?_cons {c : Char} (hquote : c ≠ '"') (hslash : c ≠ '\\') (rest : Text) :
    afterLiteral? (c :: rest) = afterLiteral? rest := by
  rw [afterLiteral?.eq_def]
  split
  · next heq => cases heq
  · next heq => exact absurd (List.cons.inj heq).1 hquote
  · next heq => exact absurd (List.cons.inj heq).1 hslash
  · next heq =>
    obtain ⟨rfl, rfl⟩ := List.cons.inj heq
    rw [if_neg hslash]

/-- An escaped character that is no line feed leaves a literal open. -/
theorem afterLiteral?_escape {c : Char} (hc : c ≠ '\n') (rest : Text) :
    afterLiteral? ('\\' :: c :: rest) = afterLiteral? rest := by
  rw [afterLiteral?, if_neg hc]

/-- Hexadecimal digits leave a literal open. -/
theorem afterLiteral?_hexDigits (places n : Nat) (rest : Text) :
    afterLiteral? (hexDigits places n ++ rest) = afterLiteral? rest := by
  have hdigit : ∀ d < 16, Nat.digitChar d ≠ '"' ∧ Nat.digitChar d ≠ '\\' := by decide
  induction places generalizing n rest with
  | zero => rfl
  | succ places ih =>
      obtain ⟨hquote, hslash⟩ := hdigit (n % 16) (Nat.mod_lt n (by decide))
      rw [hexDigits, List.append_assoc, ih, List.singleton_append, afterLiteral?_cons hquote hslash]

/-- What the printer writes for a code point leaves a literal open. -/
theorem afterLiteral?_escaped (c : CodePoint) (rest : Text) :
    afterLiteral? (Json.escaped c ++ rest) = afterLiteral? rest := by
  rcases Json.escaped_cases c with ⟨d, c, rfl, htext, hshort⟩ | ⟨unit, -, htext, -⟩ |
    ⟨c, rfl, htext, hquote, hslash, -⟩
  · rw [htext]
    refine afterLiteral?_escape ?_ rest
    rintro rfl
    cases hshort
  · rw [htext]
    exact (afterLiteral?_escape (by decide) _).trans (afterLiteral?_hexDigits 4 unit rest)
  · rw [htext]
    exact afterLiteral?_cons hquote hslash rest

/-- A printed literal is closed by its last quote. -/
theorem afterLiteral?_flatMap_escaped (s : CodeText) (rest : Text) :
    afterLiteral? (s.flatMap Json.escaped ++ '"' :: rest) = some rest := by
  induction s with
  | nil => rw [List.flatMap_nil, List.nil_append, afterLiteral?]
  | cons c s ih => rw [List.flatMap_cons, List.append_assoc, afterLiteral?_escaped, ih]

/-- Of a literal that is closed its quotes are left. -/
theorem emptyLiterals_of_afterLiteral? {text rest : Text} (h : afterLiteral? text = some rest) :
    emptyLiterals ('"' :: text) = '"' :: '"' :: emptyLiterals rest := by
  rw [emptyLiterals, if_pos rfl]
  split
  · next hafter =>
    rw [h] at hafter
    rw [Option.some.inj hafter]
  · next hafter =>
    rw [h] at hafter
    cases hafter

/-- A text stays without slashes if a closed literal is put in front. -/
theorem Uncommented.literal {text rest : Text} (hrest : Uncommented rest)
    (h : afterLiteral? text = some rest) : Uncommented ('"' :: text) := by
  unfold Uncommented
  rw [emptyLiterals_of_afterLiteral? h]
  simpa [Uncommented] using hrest

/-- A text stays without slashes if a printed literal is put in front. -/
theorem Uncommented.stringLiteral {rest : Text} (hrest : Uncommented rest) (s : CodeText) :
    Uncommented (Json.stringLiteral s ++ rest) := by
  -- The literal ends at its own last quote, whatever stands in it.
  rw [Json.stringLiteral, List.cons_append, List.append_assoc, List.singleton_append]
  exact hrest.literal (afterLiteral?_flatMap_escaped s rest)

/-! ## Layout and numbers -/

/-- The indentation of a line is plain. -/
theorem Uncommented.newline {rest : Text} (hrest : Uncommented rest) (layout : Json.Layout)
    (level : Nat) : Uncommented (layout.newline level rest) := by
  have hunit : IsPlain layout.unit := by
    cases layout with
    | tabs =>
        intro c hc
        rw [List.mem_singleton.mp hc]
        decide
    | spaces more =>
        intro c hc
        rw [List.eq_of_mem_replicate hc]
        decide
  refine (hrest.append fun c hc => ?_).cons (by decide)
  obtain ⟨unit, hmem, hc⟩ := List.mem_flatten.mp hc
  rw [List.eq_of_mem_replicate hmem] at hc
  exact hunit c hc

/-- Characters of a kind that neither quotes nor slashes are of are plain. -/
theorem isPlain_of_forall {p : Char → Prop} (hquote : ¬ p '"') (hslash : ¬ p '/') {text : Text}
    (h : ∀ c ∈ text, p c) : IsPlain text := by
  intro c hc
  constructor
  · rintro rfl
    exact hquote (h _ hc)
  · rintro rfl
    exact hslash (h _ hc)

/-- A spelled numeral is plain. -/
theorem isPlain_text {n : Json.Numeral} (hn : n.IsSpelled) : IsPlain n.text := by
  have hdigit : ∀ c : Char, c.isDigit = true → c ≠ '"' ∧ c ≠ '/' := by
    intro c hc
    refine ⟨?_, ?_⟩ <;> rintro rfl <;> cases hc
  exact Json.Numeral.forall_mem_text hn hdigit (by simp)

/-! ## Documents -/

/-- What is printed for a value adds no slashes to the text after it. -/
def PrintsUncommented (layout : Json.Layout) (v : Value) : Prop :=
  ∀ level rest, Uncommented rest → Uncommented (Json.printValue layout level v rest)

section Documents

variable {layout : Json.Layout}

/-- What is printed for the scalars of documents adds no slashes. -/
theorem printsUncommented_of_isScalar {v : Value} (hv : v.IsScalar)
    (hdocument : v.IsDocumentScalar) : PrintsUncommented layout v := by
  intro level rest hrest
  cases v with
  | null => exact hrest.append (isPlain_of_all rfl)
  | bool b => cases b <;> exact hrest.append (isPlain_of_all rfl)
  | int z =>
      obtain ⟨n, hspelled, htext, -⟩ := exists_numeral_value_int hdocument
      rw [Json.printValue, ← htext]
      exact hrest.append (isPlain_text hspelled)
  | float x =>
      obtain ⟨negative, m, rfl⟩ := hdocument
      obtain ⟨n, hspelled, htext, -⟩ := exists_numeral_value_float negative m
      rw [Json.printValue, ← htext]
      exact hrest.append (isPlain_text hspelled)
  | str s => exact hrest.stringLiteral s
  | _ => exact hv.elim

/-- What is printed for the items after a value adds no slashes. -/
theorem uncommented_printItems {items : List Value} (h : ∀ v ∈ items, PrintsUncommented layout v)
    (level : Nat) {rest : Text} (hrest : Uncommented rest) :
    Uncommented (Json.printItems layout level items rest) := by
  induction items with
  | nil => rwa [Json.printItems]
  | cons v items ih =>
      obtain ⟨hv, hitems⟩ := List.forall_mem_cons.mp h
      rw [Json.printItems]
      exact ((hv level _ (ih hitems)).newline layout level).cons (by decide)

/-- What is printed for a list adds no slashes if what is printed for its items adds none. -/
theorem printsUncommented_list {items : List Value} (h : ∀ v ∈ items, PrintsUncommented layout v) :
    PrintsUncommented layout (.list items) := by
  intro level rest hrest
  cases items with
  | nil =>
      rw [Json.printValue, Json.printList]
      exact (hrest.cons (by decide)).cons (by decide)
  | cons v items =>
      obtain ⟨hv, hitems⟩ := List.forall_mem_cons.mp h
      have hclose := (hrest.cons (c := ']') (by decide)).newline layout level
      have hlines := hv (level + 1) _ (uncommented_printItems hitems (level + 1) hclose)
      rw [Json.printValue, Json.printList]
      exact (hlines.newline layout (level + 1)).cons (by decide)

/-- What is printed for a member adds no slashes if what is printed for its value adds none. -/
theorem uncommented_member {v : Value} (hv : PrintsUncommented layout v) (s : CodeText)
    (level : Nat) {rest : Text} (hrest : Uncommented rest) :
    Uncommented (layout.newline level
      (Json.keyLiteral (.str s) ++ ':' :: ' ' :: Json.printValue layout level v rest)) := by
  have hvalue := ((hv level rest hrest).cons (c := ' ') (by decide)).cons (c := ':') (by decide)
  exact (hvalue.stringLiteral s).newline layout level

/-- What is printed for the members after a value adds no slashes. -/
theorem uncommented_printMembers {members : List (CodeText × Value)}
    (h : ∀ m ∈ members, PrintsUncommented layout m.2) (level : Nat) {rest : Text}
    (hrest : Uncommented rest) :
    Uncommented (Json.printMembers layout level (stringMembers members) rest) := by
  induction members with
  | nil => exact hrest
  | cons m members ih =>
      obtain ⟨hm, hmembers⟩ := List.forall_mem_cons.mp h
      rw [stringMembers_cons, Json.printMembers]
      exact (uncommented_member hm m.1 level (ih hmembers)).cons (by decide)

/-- What is printed for a mapping adds no slashes if what is printed for its values adds none. -/
theorem printsUncommented_map {members : List (CodeText × Value)}
    (h : ∀ m ∈ members, PrintsUncommented layout m.2) :
    PrintsUncommented layout (.map (stringMembers members)) := by
  intro level rest hrest
  cases members with
  | nil =>
      rw [stringMembers_nil, Json.printValue]
      exact (hrest.cons (by decide)).cons (by decide)
  | cons m members =>
      obtain ⟨hm, hmembers⟩ := List.forall_mem_cons.mp h
      have hclose := (hrest.cons (c := '}') (by decide)).newline layout level
      have hmember := uncommented_member hm m.1 (level + 1)
        (uncommented_printMembers hmembers (level + 1) hclose)
      rw [stringMembers_cons, Json.printValue]
      exact hmember.cons (by decide)

/-- What is printed for a document value adds no slashes. -/
theorem printsUncommented_of_isDocument {v : Value} (h : v.IsDocument) :
    PrintsUncommented layout v := by
  induction h with
  | scalar hscalar hgood => exact printsUncommented_of_isScalar hscalar hgood
  | list _ ih => exact printsUncommented_list ih
  | map _ _ _ ih => exact printsUncommented_map ih

/-- A printed document is never taken to hold comments. -/
theorem detect_printDocument (layout : Json.Layout) {v : Value} (h : v.IsDocument) :
    detect (Json.printDocument layout v) = false := by
  have hend : Uncommented ['\n'] := by
    unfold Uncommented
    simp [emptyLiterals]
  exact (printsUncommented_of_isDocument h 0 _ hend).detect

end Documents

end Comment

end KeyOrder
