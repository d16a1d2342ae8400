import KeyOrder.Platform
import KeyOrder.Text.Distinct
/-!
# Brace groups

A brace group with commas stands for any of its alternatives, and alternatives
may hold groups again.  A pattern is expanded at its first outermost group that
has a comma of its own; a group without one is literal with all it holds, and so
is everything from an opening brace that is never closed.  A pattern that asks
for too many choices one after another is refused.
-/

namespace KeyOrder.Glob

/-! ## Groups -/

/-- The body of a group and what follows it, after `depth + 1` opening braces have been read. -/
def closeGroup? : Nat → CodeText → Option (CodeText × CodeText)
  | _, [] => none
  | depth, .scalar '{' :: rest =>
    (closeGroup? (depth + 1) rest).map fun found => (.scalar '{' :: found.1, found.2)
  | 0, .scalar '}' :: rest => some ([], rest)
  | depth + 1, .scalar '}' :: rest =>
    (closeGroup? depth rest).map fun found => (.scalar '}' :: found.1, found.2)
  | depth, c :: rest => (closeGroup? depth rest).map fun found => (c :: found.1, found.2)

/-- Puts a character in front of the first text of a list. -/
def consFirst (c : CodePoint) : List CodeText → List CodeText
  | [] => [[c]]
  | text :: rest => (c :: text) :: rest

/-- Splits the body of a group at the commas outside inner groups, `depth` groups being open. -/
def splitOptions : Nat → CodeText → List CodeText
  | _, [] => [[]]
  | depth, .scalar '{' :: rest => consFirst (.scalar '{') (splitOptions (depth + 1) rest)
  | 0, .scalar ',' :: rest => [] :: splitOptions 0 rest
  | depth, .scalar '}' :: rest => consFirst (.scalar '}') (splitOptions (depth - 1) rest)
  | depth, c :: rest => consFirst c (splitOptions depth rest)

/-! ## Length -/

/-- A group is cut out of the text: its body, its closing brace and the rest make up the text. -/
theorem closeGroup_eq {depth : Nat} {text body rest : CodeText}
    (h : closeGroup? depth text = some (body, rest)) : text = body ++ .scalar '}' :: rest := by
  fun_induction closeGroup? depth text generalizing body rest with
  | case1 => simp at h
  | case2 depth tail ih =>
    simp only [Option.map_eq_some_iff, Prod.mk.injEq] at h
    obtain ⟨⟨b, r⟩, hb, rfl, rfl⟩ := h
    simp [ih hb]
  | case3 => simp_all
  | case4 depth tail ih =>
    simp only [Option.map_eq_some_iff, Prod.mk.injEq] at h
    obtain ⟨⟨b, r⟩, hb, rfl, rfl⟩ := h
    simp [ih hb]
  | case5 depth c tail _ _ _ ih =>
    simp only [Option.map_eq_some_iff, Prod.mk.injEq] at h
    obtain ⟨⟨b, r⟩, hb, rfl, rfl⟩ := h
    simp [ih hb]

/-- The first text grows by the character, and no other is there. -/
theorem length_of_mem_consFirst {c : CodePoint} {texts : List CodeText} {option : CodeText}
    {bound : Nat} (htexts : ∀ t ∈ texts, t.length ≤ bound) (h : option ∈ consFirst c texts) :
    option.length ≤ bound + 1 := by
  cases texts with
  | nil => simp_all [consFirst]
  | cons text rest =>
    simp only [consFirst, List.mem_cons] at h
    rcases h with rfl | h
    · have := htexts text (by simp)
      simpa using this
    · have := htexts option (by simp [h])
      omega

/-- An alternative is not longer than the body that it comes from. -/
theorem length_of_mem_splitOptions {depth : Nat} {body : CodeText} :
    ∀ option ∈ splitOptions depth body, option.length ≤ body.length := by
  fun_induction splitOptions depth body with
  | case1 => simp
  | case2 depth rest ih => exact fun option h => length_of_mem_consFirst ih h
  | case3 rest ih =>
    intro option h
    simp only [List.mem_cons] at h
    rcases h with rfl | h
    · simp
    · have := ih option h
      simp only [List.length_cons]
      omega
  | case4 depth rest ih => exact fun option h => length_of_mem_consFirst ih h
  | case5 depth c rest _ _ _ ih => exact fun option h => length_of_mem_consFirst ih h

/-! ## Expansion -/

/-- A pattern cut at a group: what stands before it, its body and what follows it. -/
structure Choice where
  before : CodeText
  body : CodeText
  after : CodeText

/-- A choice with more text before it. -/
def Choice.extend (text : CodeText) (choice : Choice) : Choice :=
  { choice with before := text ++ choice.before }

/-- The first outermost group that has a comma of its own. -/
def firstChoice? : CodeText → Option Choice
  | [] => none
  | c :: rest =>
    if c = .scalar '{' then
      match _h : closeGroup? 0 rest with
      | none => none
      | some (body, after) =>
        if 2 ≤ (splitOptions 0 body).length then some ⟨[], body, after⟩
        else (firstChoice? after).map (Choice.extend (.scalar '{' :: (body ++ [.scalar '}'])))
    else (firstChoice? rest).map (Choice.extend [c])
termination_by text => text.length
decreasing_by
  · have := closeGroup_eq _h
    simp only [this, List.length_cons, List.length_append]
    omega
  · simp

/-- A closed group with a comma of its own is a choice. -/
theorem firstChoice?_of_closeGroup? {rest body after : CodeText}
    (h : closeGroup? 0 rest = some (body, after)) (hoptions : 2 ≤ (splitOptions 0 body).length) :
    firstChoice? (.scalar '{' :: rest) = some ⟨[], body, after⟩ := by
  rw [firstChoice?, if_pos rfl]
  split
  · next hnone =>
    rw [h] at hnone
    cases hnone
  · next hsome =>
    rw [h] at hsome
    cases hsome
    exact if_pos hoptions

/-- A choice is cut out of the pattern. -/
theorem firstChoice_eq {pattern : CodeText} {choice : Choice}
    (h : firstChoice? pattern = some choice) :
    pattern = choice.before ++ .scalar '{' :: (choice.body ++ .scalar '}' :: choice.after) := by
  fun_induction firstChoice? pattern generalizing choice with
  | case1 => simp at h
  | case2 => simp at h
  | case3 rest body after hclose _ =>
    simp only [Option.some.injEq] at h
    subst h
    simp [closeGroup_eq hclose]
  | case4 rest body after hclose _ ih =>
    simp only [Option.map_eq_some_iff] at h
    obtain ⟨inner, hinner, rfl⟩ := h
    have h1 := ih hinner
    have h2 := closeGroup_eq hclose
    rw [h2]
    conv => lhs; rw [h1]
    simp [Choice.extend]
  | case5 c rest _ ih =>
    simp only [Option.map_eq_some_iff] at h
    obtain ⟨inner, hinner, rfl⟩ := h
    conv => lhs; rw [ih hinner]
    simp [Choice.extend]

/-- The pattern with an alternative in place of the group. -/
def Choice.with (choice : Choice) (option : CodeText) : CodeText :=
  choice.before ++ option ++ choice.after

/-- The patterns that a pattern stands for, each once, in the order of its alternatives. -/
def expandBraces (pattern : CodeText) : List CodeText :=
  match _h : firstChoice? pattern with
  | none => [pattern]
  | some choice =>
    distinct ((splitOptions 0 choice.body).attach.flatMap fun option =>
      expandBraces (choice.with option.val))
termination_by pattern.length
decreasing_by
  have h1 := length_of_mem_splitOptions option.val option.property
  have h2 := congrArg List.length (firstChoice_eq _h)
  simp only [Choice.with, List.length_append, List.length_cons] at h2 ⊢
  omega

/-- A pattern without a choice stands for itself alone. -/
theorem expandBraces_of_none {pattern : CodeText} (h : firstChoice? pattern = none) :
    expandBraces pattern = [pattern] := by
  rw [expandBraces]
  split
  · rfl
  · next hsome =>
    rw [h] at hsome
    cases hsome

/-- A pattern with a choice stands for what it stands for with each of the alternatives. -/
theorem expandBraces_of_some {pattern : CodeText} {choice : Choice}
    (h : firstChoice? pattern = some choice) :
    expandBraces pattern = ((splitOptions 0 choice.body).flatMap fun option =>
      expandBraces (choice.with option)).eraseDups := by
  rw [expandBraces]
  split
  · next hnone =>
    rw [h] at hnone
    cases hnone
  · next found hsome =>
    obtain rfl := Option.some.inj (h.symm.trans hsome)
    rw [distinct_eq_eraseDups, List.flatMap_subtype, List.unattach_attach]
    exact fun _ _ => rfl

/-! ## Patterns that are refused -/

/-- Why a pattern cannot be used. -/
inductive Fault where
  /-- It asks for too many choices one after another. -/
  | tooManyChoices
  /-- It asks for too many searches one within another. -/
  | tooManySearches
  deriving DecidableEq

/-- The wording of a fault. -/
def Fault.message : Fault → String
  | tooManyChoices => "maximum recursion depth exceeded"
  | tooManySearches => "maximum recursion depth exceeded"

/-- The patterns that a pattern stands for, unless more choices than there are left have to be made
one after another. -/
def expandWithin : Nat → CodeText → Except Fault (List CodeText)
  | 0, pattern =>
    match firstChoice? pattern with
    | none => .ok [pattern]
    | some _ => .error .tooManyChoices
  | left + 1, pattern =>
    match firstChoice? pattern with
    | none => .ok [pattern]
    | some choice => do
      let found ← (splitOptions 0 choice.body).mapM fun option =>
        expandWithin left (choice.with option)
      return distinct found.flatten

/-- The patterns that a pattern stands for, unless it asks for too many choices. -/
def alternatives [Platform] (pattern : CodeText) : Except Fault (List CodeText) :=
  expandWithin Platform.maxChoices pattern

/-- The most choices that are made one after another to reach a text that a pattern stands for:
one for the first group, those within its alternatives, and those after it. -/
def choicesIn (pattern : CodeText) : Nat :=
  match _h : firstChoice? pattern with
  | none => 0
  | some choice =>
    1 + ((splitOptions 0 choice.body).attach.map fun option => choicesIn option.val).foldl max 0 +
      choicesIn choice.after
termination_by pattern.length
decreasing_by
  all_goals
    have h := congrArg List.length (firstChoice_eq _h)
    simp only [List.length_append, List.length_cons] at h
  · have := length_of_mem_splitOptions option.val option.property
    omega
  · omega

/-- A pattern without a choice asks for none. -/
theorem choicesIn_of_none {pattern : CodeText} (h : firstChoice? pattern = none) :
    choicesIn pattern = 0 := by
  rw [choicesIn]
  split
  · rfl
  · next hsome =>
    rw [h] at hsome
    cases hsome

/-- Whether a pattern asks for no more choices than are made, which can be told without making
them. -/
def isExpandable [Platform] (pattern : CodeText) : Bool :=
  choicesIn pattern ≤ Platform.maxChoices

end KeyOrder.Glob
