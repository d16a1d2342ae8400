import KeyOrder.Json.Print
import KeyOrder.Proofs.Shape
/-!
# Drafts of documents

A document can be printed in two passes: first a draft in which unpaired halves stand as
they are, then every half in the draft is escaped, wherever it stands.  The printer escapes
them at once, and both ways give the same text.
-/

namespace KeyOrder.Json

/-! ## The first pass -/

/-- A code point in a draft: halves stand for themselves. -/
def draftUnit : CodePoint → CodeText
  | .scalar c => CodeText.ofText (escaped (.scalar c))
  | half => [half]

/-- A string literal in a draft. -/
def draftLiteral (s : CodeText) : CodeText :=
  .scalar '"' :: (s.flatMap draftUnit ++ [.scalar '"'])

/-- A key in a draft. -/
def draftKey : Key → CodeText
  | .str s => draftLiteral s
  | key => CodeText.ofText (keyLiteral key)

/-- A line feed and the indentation of the next line, in front of `rest`. -/
def draftNewline (layout : Layout) (level : Nat) (rest : CodeText) : CodeText :=
  CodeText.ofText (layout.newline level []) ++ rest

mutual

/-- The draft of a value at a level, in front of `rest`. -/
def draftValue (layout : Layout) (level : Nat) : Value → CodeText → CodeText
  | .null, rest => codeText "null" ++ rest
  | .bool b, rest => CodeText.ofText (boolLiteral b) ++ rest
  | .int n, rest => CodeText.ofText (digitsOfInt n) ++ rest
  | .float x, rest => CodeText.ofText x.text ++ rest
  | .str s, rest => draftLiteral s ++ rest
  | .list items, rest => draftList layout level items rest
  | .tuple items, rest => draftList layout level items rest
  | .map [], rest => .scalar '{' :: .scalar '}' :: rest
  | .map ((key, v) :: members), rest =>
    .scalar '{' :: draftNewline layout (level + 1) (draftKey key ++ .scalar ':' :: .scalar ' ' ::
      draftValue layout (level + 1) v (draftMembers layout (level + 1) members
        (draftNewline layout level (.scalar '}' :: rest))))
  | .object _ _, rest => rest

/-- The draft of items in brackets. -/
def draftList (layout : Layout) (level : Nat) : List Value → CodeText → CodeText
  | [], rest => .scalar '[' :: .scalar ']' :: rest
  | v :: items, rest =>
    .scalar '[' :: draftNewline layout (level + 1) (draftValue layout (level + 1) v
      (draftItems layout (level + 1) items (draftNewline layout level (.scalar ']' :: rest))))

/-- The draft of the items after the first one. -/
def draftItems (layout : Layout) (level : Nat) : List Value → CodeText → CodeText
  | [], rest => rest
  | v :: items, rest =>
    .scalar ',' :: draftNewline layout level
      (draftValue layout level v (draftItems layout level items rest))

/-- The draft of the members after the first one. -/
def draftMembers (layout : Layout) (level : Nat) : List (Key × Value) → CodeText → CodeText
  | [], rest => rest
  | (key, v) :: members, rest =>
    .scalar ',' :: draftNewline layout level (draftKey key ++ .scalar ':' :: .scalar ' ' ::
      draftValue layout level v (draftMembers layout level members rest))

end

/-- The draft of a document, with one line feed at the end. -/
def draft (layout : Layout) (v : Value) : CodeText :=
  draftValue layout 0 v [.scalar '\n']

/-! ## The second pass -/

/-- What is written for a code point of a draft: a half is escaped with its number. -/
def written : CodePoint → Text
  | .scalar c => [c]
  | half => '\\' :: 'u' :: hexDigits 4 half.code

/-- The draft with all its halves escaped. -/
def escapeHalves (draft : CodeText) : Text :=
  draft.flatMap written

@[simp] theorem escapeHalves_scalar (c : Char) (rest : CodeText) :
    escapeHalves (.scalar c :: rest) = c :: escapeHalves rest := by
  rfl

@[simp] theorem escapeHalves_append (front rest : CodeText) :
    escapeHalves (front ++ rest) = escapeHalves front ++ escapeHalves rest :=
  List.flatMap_append

@[simp] theorem escapeHalves_ofText (text : Text) : escapeHalves (CodeText.ofText text) = text := by
  induction text with
  | nil => rfl
  | cons c text ih => exact congrArg (c :: ·) ih

/-! ## Both passes -/

/-- The units of a draft become what the printer writes for them. -/
theorem escapeHalves_draftUnits (s : CodeText) :
    escapeHalves (s.flatMap draftUnit) = s.flatMap escaped := by
  have hunit : ∀ c, escapeHalves (draftUnit c) = escaped c := by
    intro c
    cases c with
    | scalar c => exact escapeHalves_ofText _
    | leading bits => exact List.append_nil _
    | trailing bits => exact List.append_nil _
  rw [escapeHalves, List.flatMap_assoc]
  exact List.flatMap_congr fun c _ => hunit c

/-- A literal of a draft becomes the literal. -/
theorem escapeHalves_draftLiteral (s : CodeText) :
    escapeHalves (draftLiteral s) = stringLiteral s := by
  rw [draftLiteral, escapeHalves_scalar, escapeHalves_append, escapeHalves_draftUnits]
  rfl

/-- A key of a draft becomes the key. -/
theorem escapeHalves_draftKey (key : Key) : escapeHalves (draftKey key) = keyLiteral key := by
  cases key with
  | str s => exact escapeHalves_draftLiteral s
  | _ => exact escapeHalves_ofText _

/-- The beginning of a line stays as it is. -/
theorem escapeHalves_draftNewline (layout : Layout) (level : Nat) (rest : CodeText) :
    escapeHalves (draftNewline layout level rest) = layout.newline level (escapeHalves rest) := by
  rw [draftNewline, escapeHalves_append, escapeHalves_ofText, Layout.newline, Layout.newline,
    List.append_nil]
  rfl

section Values

variable {layout : Layout}

/-- The draft of a value becomes what is printed for it. -/
def IsDrafted (layout : Layout) (v : Value) : Prop :=
  ∀ level rest, escapeHalves (draftValue layout level v rest)
    = printValue layout level v (escapeHalves rest)

/-- The draft of items becomes what is printed for them. -/
theorem escapeHalves_draftItems {items : List Value} (h : ∀ v ∈ items, IsDrafted layout v)
    (level : Nat) (rest : CodeText) : escapeHalves (draftItems layout level items rest)
      = printItems layout level items (escapeHalves rest) := by
  induction items with
  | nil => rw [draftItems, printItems]
  | cons v items ih =>
      obtain ⟨hv, hitems⟩ := List.forall_mem_cons.mp h
      rw [draftItems, printItems, escapeHalves_scalar, escapeHalves_draftNewline, hv, ih hitems]

/-- The draft of a list becomes what is printed for it. -/
theorem escapeHalves_draftList {items : List Value} (h : ∀ v ∈ items, IsDrafted layout v)
    (level : Nat) (rest : CodeText) : escapeHalves (draftList layout level items rest)
      = printList layout level items (escapeHalves rest) := by
  cases items with
  | nil => rw [draftList, printList, escapeHalves_scalar, escapeHalves_scalar]
  | cons v items =>
      obtain ⟨hv, hitems⟩ := List.forall_mem_cons.mp h
      rw [draftList, printList, escapeHalves_scalar, escapeHalves_draftNewline, hv,
        escapeHalves_draftItems hitems, escapeHalves_draftNewline, escapeHalves_scalar]

/-- The draft of members becomes what is printed for them. -/
theorem escapeHalves_draftMembers {members : List (Key × Value)}
    (h : ∀ m ∈ members, IsDrafted layout m.2) (level : Nat) (rest : CodeText) :
    escapeHalves (draftMembers layout level members rest)
      = printMembers layout level members (escapeHalves rest) := by
  induction members with
  | nil => rw [draftMembers, printMembers]
  | cons m members ih =>
      obtain ⟨hm, hmembers⟩ := List.forall_mem_cons.mp h
      rw [draftMembers, printMembers, escapeHalves_scalar, escapeHalves_draftNewline,
        escapeHalves_append, escapeHalves_draftKey, escapeHalves_scalar, escapeHalves_scalar, hm,
        ih hmembers]

/-- The draft of a mapping becomes what is printed for it. -/
theorem isDrafted_map {members : List (Key × Value)} (h : ∀ m ∈ members, IsDrafted layout m.2) :
    IsDrafted layout (.map members) := by
  intro level rest
  cases members with
  | nil => rw [draftValue, printValue, escapeHalves_scalar, escapeHalves_scalar]
  | cons m members =>
      obtain ⟨hm, hmembers⟩ := List.forall_mem_cons.mp h
      rw [draftValue, printValue, escapeHalves_scalar, escapeHalves_draftNewline,
        escapeHalves_append, escapeHalves_draftKey, escapeHalves_scalar, escapeHalves_scalar, hm,
        escapeHalves_draftMembers hmembers, escapeHalves_draftNewline, escapeHalves_scalar]

/-- The draft of any value becomes what is printed for it. -/
theorem isDrafted (layout : Layout) (v : Value) : IsDrafted layout v := by
  induction v using Value.inductionOn with
  | scalar v hv =>
      intro level rest
      cases v with
      | str s => rw [draftValue, escapeHalves_append, escapeHalves_draftLiteral, printValue]
      | null | bool _ | int _ | float _ =>
          rw [draftValue, escapeHalves_append, escapeHalves_ofText, printValue]
      | _ => exact hv.elim
  | list items h =>
      intro level rest
      rw [draftValue, printValue, escapeHalves_draftList h]
  | tuple items h =>
      intro level rest
      rw [draftValue, printValue, escapeHalves_draftList h]
  | map members h => exact isDrafted_map h
  | object _ _ =>
      intro level rest
      rw [draftValue, printValue]

end Values

/-- A printed document is its draft with all halves escaped. -/
theorem escapeHalves_draft (layout : Layout) (v : Value) :
    escapeHalves (draft layout v) = printDocument layout v :=
  isDrafted layout v 0 _

end KeyOrder.Json
