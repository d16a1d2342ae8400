import KeyOrder.Proofs.Drafts
import KeyOrder.Proofs.Parts
import KeyOrder.Proofs.RoundTrip
/-!
# Halves that stay unpaired

A literal can be read in one pass: after the escape of a first half the reader looks ahead at
the next escape, and joins the two if that one names a second half.  Otherwise the next escape is
left where it is and read again on its own, so it may be the first half of a later pair.  This reads
every literal as joining all pairs in the end does, and a decoded string never has both halves of a
pair next to each other.  So every half that is left can be written as its own escape, and is read
back as that half.
-/

namespace KeyOrder

/-! ## Codes of halves -/

/-- A code point with the code of the first half of a pair. -/
def CodePoint.IsFirstHalf (c : CodePoint) : Prop :=
  0xD800 ≤ c.code ∧ c.code ≤ 0xDBFF

/-- A code point with the code of the second half of a pair. -/
def CodePoint.IsSecondHalf (c : CodePoint) : Prop :=
  0xDC00 ≤ c.code ∧ c.code ≤ 0xDFFF

/-- No character has the code of a half. -/
theorem CodePoint.code_scalar_cases (c : Char) :
    (scalar c).code < 0xD800 ∨ 0xDFFF < (scalar c).code :=
  c.valid.imp id And.left

/-- Halves of a pair are told by their codes. -/
theorem CodePoint.pairsWith_iff {a b : CodePoint} :
    a.pairsWith b = true ↔ a.IsFirstHalf ∧ b.IsSecondHalf := by
  unfold IsFirstHalf IsSecondHalf
  cases a with
  | leading first =>
      cases b with
      | trailing second =>
          have hfirst := first.isLt
          have hsecond := second.isLt
          refine iff_of_true rfl ⟨?_, ?_⟩ <;> simp only [code] <;> omega
      | scalar c =>
          have hc := code_scalar_cases c
          refine iff_of_false Bool.false_ne_true ?_
          omega
      | leading second =>
          refine iff_of_false Bool.false_ne_true ?_
          simp only [code]
          omega
  | scalar c =>
      have hc := code_scalar_cases c
      refine iff_of_false Bool.false_ne_true ?_
      omega
  | trailing first =>
      refine iff_of_false Bool.false_ne_true ?_
      simp only [code]
      omega

/-- Both halves of a pair stand nowhere next to each other in a string without pairs. -/
theorem CodeText.isJoined_iff {s : CodeText} : s.IsJoined ↔
    ∀ before a b after, s = before ++ a :: b :: after → ¬ (a.IsFirstHalf ∧ b.IsSecondHalf) := by
  constructor
  · rintro h before a b after rfl
    rw [← CodePoint.pairsWith_iff, (List.isChain_append_cons_cons.mp h).2.1]
    exact Bool.false_ne_true
  · intro h
    induction s with
    | nil => exact List.isChain_nil
    | cons a s ih =>
        refine List.isChain_cons.mpr ⟨fun b hb => ?_, ih fun before a' b after heq => ?_⟩
        · obtain ⟨after, rfl⟩ := List.head?_eq_some_iff.mp hb
          rw [← Bool.not_eq_true, CodePoint.pairsWith_iff]
          exact h [] a b after rfl
        · exact h (a :: before) a' b after (congrArg (a :: ·) heq)

namespace Json

/-! ## Looking ahead -/

/-- What stands right after the escape of a first half. -/
inductive Ahead where
  /-- The escape of a second half; the rest is what follows it. -/
  | second (bits : Fin 1024) (rest : Text)
  /-- Nothing that the first half could be joined with. -/
  | other
  /-- An escape with wrong digits. -/
  | broken (fault : StringFault)

/-- Looks at the escape that may stand at the start of a text.  A text that does not go on after
the escape is not looked at. -/
def lookAhead : Text → Ahead
  | '\\' :: 'u' :: a :: b :: c :: d :: e :: rest =>
    match hexUnit? a b c d with
    | none => .broken (.unicodeEscape ('u' :: a :: b :: c :: d :: e :: rest))
    | some unit =>
      match CodePoint.ofUnit unit with
      | .trailing bits => .second bits (e :: rest)
      | _ => .other
  | _ => .other

/-- A second half that is found ahead is the next unit of the literal. -/
theorem lookAhead_eq_second_iff {text after : Text} {bits : Fin 1024} :
    lookAhead text = .second bits after ↔ stringPart text = .unit (.trailing bits) after := by
  constructor
  · intro h
    unfold lookAhead at h
    split at h
    · split at h
      · cases h
      · next hunit =>
        split at h
        · next htrailing =>
          obtain ⟨rfl, rfl⟩ := Ahead.second.inj h
          simp only [stringPart, longEscape?, hunit, Option.map_some, htrailing]
        · cases h
    · cases h
  · intro h
    unfold stringPart at h
    split at h
    · cases h
    · cases h
    · cases h
    · split at h
      · next hescape =>
        obtain ⟨rfl, rfl⟩ := StringPart.unit.inj h
        unfold longEscape? at hescape
        split at hescape
        · obtain ⟨unit, hunit, heq⟩ := Option.map_eq_some_iff.mp hescape
          obtain ⟨htrailing, rfl⟩ := Prod.mk.inj heq
          simp only [lookAhead, hunit, htrailing]
        · cases hescape
      · cases h
    -- Short escapes and characters that stand for themselves are no halves.
    · split at h <;> cases h
    · split at h <;> cases h

/-- Wrong digits ahead are a fault of the literal. -/
theorem stringPart_of_lookAhead_broken {text : Text} {fault : StringFault}
    (h : lookAhead text = .broken fault) : stringPart text = .broken fault := by
  unfold lookAhead at h
  split at h
  · split at h
    · next hunit =>
      obtain rfl := Ahead.broken.inj h
      simp only [stringPart, longEscape?, hunit, Option.map_none]
    · split at h <;> cases h
  · cases h

/-! ## One pass -/

/-- The first part of the rest of a literal, a first half joined with the second half after it. -/
def joinedPart (text : Text) : StringPart :=
  match stringPart text with
  | .unit (.leading first) rest =>
    match lookAhead rest with
    | .second second after => .unit (.scalar (pairedChar first second)) after
    | .other => .unit (.leading first) rest
    | .broken fault => .broken fault
  | part => part

/-- A part of a literal takes at least one character, joined or not. -/
theorem length_joinedPart_lt {text rest : Text} {c : CodePoint}
    (h : joinedPart text = .unit c rest) : rest.length < text.length := by
  unfold joinedPart at h
  split at h
  · next hpart =>
    have hlt := length_stringPart_lt hpart
    split at h
    · next hahead =>
      have hlt' := length_stringPart_lt (lookAhead_eq_second_iff.mp hahead)
      obtain ⟨-, rfl⟩ := StringPart.unit.inj h
      omega
    · obtain ⟨-, rfl⟩ := StringPart.unit.inj h
      exact hlt
    · cases h
  · exact length_stringPart_lt h

/-- A string literal after its opening quote, read in one pass. -/
def scanAhead (text : Text) : Except StringFault (CodeText × Text) :=
  match _h : joinedPart text with
  | .close rest => .ok ([], rest)
  | .broken fault => .error fault
  | .unit c rest => (fun scanned => (c :: scanned.1, scanned.2)) <$> scanAhead rest
termination_by text.length
decreasing_by exact length_joinedPart_lt _h

section Scan

variable {text rest after : Text}

/-- The first unit of a literal is the one that it starts with. -/
theorem exists_stringPart_of_scanUnits {c : CodePoint} {units : CodeText}
    (h : scanUnits text = .ok (c :: units, after)) : ∃ rest, stringPart text = .unit c rest := by
  cases hpart : stringPart text with
  | close rest =>
      rw [scanUnits_of_close hpart] at h
      cases h
  | broken fault =>
      rw [scanUnits_of_broken hpart] at h
      cases h
  | unit d rest =>
      rw [scanUnits_of_unit hpart] at h
      cases hunits : scanUnits rest with
      | error fault => rw [hunits] at h; cases h
      | ok scanned =>
          rw [hunits] at h
          obtain ⟨hunit, -⟩ := List.cons.inj (Prod.mk.inj (Except.ok.inj h)).1
          exact ⟨rest, by rw [hunit]⟩

/-- A unit that is not joined with the next one comes first in the string. -/
theorem scanString_of_unit {c : CodePoint} (h : stringPart text = .unit c rest)
    (hnext : ∀ d after, stringPart rest = .unit d after → c.pairsWith d = false) :
    scanString text = (fun scanned => (c :: scanned.1, scanned.2)) <$> scanString rest := by
  rw [scanString, scanString, scanUnits_of_unit h]
  cases hunits : scanUnits rest with
  | error fault => rfl
  | ok scanned =>
      obtain ⟨units, after⟩ := scanned
      show Except.ok (CodeText.joinPairs (c :: units), after) = .ok (c :: units.joinPairs, after)
      rw [CodeText.joinPairs]
      rintro first second tail rfl rfl
      obtain ⟨_, hpart⟩ := exists_stringPart_of_scanUnits hunits
      cases hnext _ _ hpart

/-- Two halves of a pair are joined, and the literal is read on after them. -/
theorem scanString_of_pair {first second : Fin 1024}
    (h : stringPart text = .unit (.leading first) rest)
    (hnext : stringPart rest = .unit (.trailing second) after) :
    scanString text = (fun scanned => (.scalar (pairedChar first second) :: scanned.1, scanned.2))
      <$> scanString after := by
  rw [scanString, scanString, scanUnits_of_unit h, scanUnits_of_unit hnext]
  cases scanUnits after with
  | error fault => rfl
  | ok scanned => rfl

/-- A literal that ends at once is empty. -/
theorem scanString_of_joinedPart_close (h : joinedPart text = .close rest) :
    scanString text = .ok ([], rest) := by
  unfold joinedPart at h
  split at h
  · split at h <;> cases h
  · rw [scanString, scanUnits_of_close h]
    rfl

/-- A fault of the next part is one of the literal. -/
theorem scanString_of_joinedPart_broken {fault : StringFault}
    (h : joinedPart text = .broken fault) : scanString text = .error fault := by
  unfold joinedPart at h
  split at h
  · next hpart =>
    split at h
    · cases h
    · cases h
    · next hahead =>
      obtain rfl := StringPart.broken.inj h
      rw [scanString, scanUnits_of_unit hpart,
        scanUnits_of_broken (stringPart_of_lookAhead_broken hahead)]
      rfl
  · rw [scanString, scanUnits_of_broken h]
    rfl

/-- The next part comes first in the string, joined or not. -/
theorem scanString_of_joinedPart_unit {c : CodePoint} (h : joinedPart text = .unit c rest) :
    scanString text = (fun scanned => (c :: scanned.1, scanned.2)) <$> scanString rest := by
  unfold joinedPart at h
  split at h
  · next first tail hpart =>
    split at h
    · next hahead =>
      obtain ⟨rfl, rfl⟩ := StringPart.unit.inj h
      exact scanString_of_pair hpart (lookAhead_eq_second_iff.mp hahead)
    · next hahead =>
      obtain ⟨rfl, rfl⟩ := StringPart.unit.inj h
      refine scanString_of_unit hpart fun d after hnext => ?_
      cases d with
      | trailing second =>
          rw [lookAhead_eq_second_iff.mpr hnext] at hahead
          cases hahead
      | _ => rfl
    · cases h
  · next hplain =>
    refine scanString_of_unit h fun d _ _ => ?_
    cases c with
    | leading first => exact absurd h (hplain first rest)
    | _ => rfl

/-- Reading in one pass gives what joining all pairs in the end gives. -/
theorem scanAhead_eq_scanString (text : Text) : scanAhead text = scanString text := by
  fun_induction scanAhead text with
  | case1 text rest hpart => exact (scanString_of_joinedPart_close hpart).symm
  | case2 text fault hpart => exact (scanString_of_joinedPart_broken hpart).symm
  | case3 text c rest hpart ih => rw [ih, scanString_of_joinedPart_unit hpart]

end Scan

/-! ## Decoded strings -/

/-- No string or key of the value that a text holds has both halves of a pair next to each other.
So it is read back from what is written with each half as its own escape, and so is the value. -/
theorem unpaired_of_parseDocument [Platform] {text : Text} {v : Value}
    (h : parseDocument text = .ok v) : (∀ s, v.HasString s →
      (∀ before a b after, s = before ++ a :: b :: after →
        ¬ (a.IsFirstHalf ∧ b.IsSecondHalf)) ∧
      ∀ rest, scanAhead (escapeHalves (s.flatMap draftUnit) ++ '"' :: rest) = .ok (s, rest)) ∧
    ∀ layout, parseDocument (escapeHalves (draft layout v)) = .ok v := by
  obtain ⟨hdocument, hnesting⟩ := isDocument_of_parseDocument h
  refine ⟨fun s hs => ?_, fun layout => ?_⟩
  · have hjoined : s.IsJoined := hdocument.of_hasString hs
    refine ⟨CodeText.isJoined_iff.mp hjoined, fun rest => ?_⟩
    rw [scanAhead_eq_scanString, escapeHalves_draftUnits, scanString_escaped hjoined]
  · rw [escapeHalves_draft, parseDocument_printDocument layout hdocument hnesting]

/-- A pair between halves that stay unpaired. -/
def pairAmongHalves : CodeText :=
  [.ofUnit 0xD800, .scalar (Char.ofNat 0x10000), .ofUnit 0xDC00]

/-- Of four escapes of halves the inner two are joined, and the outer ones are read back. -/
theorem unpaired_of_parseDocument_run :
    parseDocument "\"\\ud800\\ud800\\udc00\\udc00\"\n".toList = .ok (.str pairAmongHalves) ∧
      (∀ rest, scanAhead (escapeHalves (pairAmongHalves.flatMap draftUnit) ++ '"' :: rest)
        = .ok (pairAmongHalves, rest)) ∧
      parseDocument (escapeHalves (draft .tabs (.str pairAmongHalves)))
        = .ok (.str pairAmongHalves) := by
  have hscan : scanToken "\"\\ud800\\ud800\\udc00\\udc00\"\n".toList
      = .ok (.string pairAmongHalves, ['\n']) := by
    decide +kernel
  have hread : parseDocument "\"\\ud800\\ud800\\udc00\\udc00\"\n".toList
      = .ok (.str pairAmongHalves) :=
    parseDocument_eq_ok_iff.mpr ((readFrom_of_scanToken hscan rfl).trans (readFrom_finish _))
  obtain ⟨hstrings, hdrafts⟩ := unpaired_of_parseDocument hread
  exact ⟨hread, (hstrings _ (Or.inl .self)).2, hdrafts .tabs⟩

end Json

end KeyOrder
