import KeyOrder.Glob.Brace
import Mathlib
/-!
# Balanced groups

A group is a text between two braces in which every brace has its partner.  The search for
the end of a group finds exactly these, and splitting the body of a group at its commas
gives back the alternatives that commas were put between.
-/

namespace KeyOrder.Glob

/-! ## Balanced texts -/

/-- A text in which every brace has its partner. -/
inductive IsBalanced : CodeText → Prop
  | nil : IsBalanced []
  | plain {c : CodePoint} {rest : CodeText} (hopen : c ≠ .scalar '{') (hclose : c ≠ .scalar '}')
      (h : IsBalanced rest) : IsBalanced (c :: rest)
  | group {body rest : CodeText} (hbody : IsBalanced body) (h : IsBalanced rest) :
      IsBalanced (.scalar '{' :: (body ++ .scalar '}' :: rest))

/-- A balanced text without a comma outside of its groups. -/
inductive IsOption : CodeText → Prop
  | nil : IsOption []
  | plain {c : CodePoint} {rest : CodeText} (hopen : c ≠ .scalar '{') (hclose : c ≠ .scalar '}')
      (hcomma : c ≠ .scalar ',') (h : IsOption rest) : IsOption (c :: rest)
  | group {body rest : CodeText} (hbody : IsBalanced body) (h : IsOption rest) :
      IsOption (.scalar '{' :: (body ++ .scalar '}' :: rest))

/-- Texts with a comma between any two. -/
def withCommas (options : List CodeText) : CodeText :=
  [.scalar ','].intercalate options

/-- A text without commas of its own is balanced. -/
theorem IsOption.isBalanced {text : CodeText} (h : IsOption text) : IsBalanced text := by
  induction h with
  | nil => exact .nil
  | plain hopen hclose _ _ ih => exact .plain hopen hclose ih
  | group hbody _ ih => exact .group hbody ih

/-- Balanced texts one after another are balanced. -/
theorem IsBalanced.append {text text' : CodeText} (h : IsBalanced text) (h' : IsBalanced text') :
    IsBalanced (text ++ text') := by
  induction h with
  | nil => exact h'
  | plain hopen hclose _ ih => exact .plain hopen hclose ih
  | group hbody _ _ ih =>
      rw [List.cons_append, List.append_assoc, List.cons_append]
      exact .group hbody ih

/-- Two or more texts with commas between them. -/
theorem withCommas_cons_cons (option next : CodeText) (options : List CodeText) :
    withCommas (option :: next :: options)
      = option ++ .scalar ',' :: withCommas (next :: options) := by
  simp [withCommas, List.intercalate_cons_cons]

/-- Alternatives with commas between them are balanced. -/
theorem isBalanced_withCommas {options : List CodeText} (h : ∀ o ∈ options, IsOption o) :
    IsBalanced (withCommas options) := by
  induction options with
  | nil => exact .nil
  | cons option options ih =>
      obtain ⟨hoption, hrest⟩ := List.forall_mem_cons.mp h
      cases options with
      | nil => simpa [withCommas] using hoption.isBalanced
      | cons next options =>
          rw [withCommas_cons_cons]
          exact hoption.isBalanced.append (.plain (by simp) (by simp) (ih hrest))

/-- A balanced text is made of alternatives with commas between them. -/
theorem IsBalanced.exists_options {body : CodeText} (h : IsBalanced body) :
    ∃ option options, (∀ o ∈ option :: options, IsOption o) ∧
      body = withCommas (option :: options) := by
  -- A text in front of the first alternative stands in front of them all.
  have hfront : ∀ (front first : CodeText) (others : List CodeText),
      front ++ withCommas (first :: others) = withCommas ((front ++ first) :: others) := by
    intro front first others
    cases others with
    | nil => simp [withCommas]
    | cons next others => rw [withCommas_cons_cons, withCommas_cons_cons, List.append_assoc]
  induction h with
  | nil => exact ⟨[], [], List.forall_mem_singleton.mpr .nil, rfl⟩
  | @plain c rest hopen hclose _ ih =>
      obtain ⟨option, options, hall, rfl⟩ := ih
      by_cases hcomma : c = .scalar ','
      · refine ⟨[], option :: options, List.forall_mem_cons.mpr ⟨.nil, hall⟩, ?_⟩
        rw [withCommas_cons_cons, hcomma]
        rfl
      · obtain ⟨hoption, hoptions⟩ := List.forall_mem_cons.mp hall
        exact ⟨c :: option, options, List.forall_mem_cons.mpr
          ⟨.plain hopen hclose hcomma hoption, hoptions⟩, hfront [c] option options⟩
  | @group body rest hbody _ _ ih =>
      obtain ⟨option, options, hall, rfl⟩ := ih
      obtain ⟨hoption, hoptions⟩ := List.forall_mem_cons.mp hall
      refine ⟨.scalar '{' :: (body ++ .scalar '}' :: option), options, List.forall_mem_cons.mpr
        ⟨.group hbody hoption, hoptions⟩, ?_⟩
      have hgroup := hfront (.scalar '{' :: (body ++ [.scalar '}'])) option options
      simpa using hgroup

/-! ## Ends of groups -/

/-- A character that is no brace belongs to the group. -/
theorem closeGroup?_plain {c : CodePoint} (hopen : c ≠ .scalar '{') (hclose : c ≠ .scalar '}')
    (depth : Nat) (rest : CodeText) :
    closeGroup? depth (c :: rest) = (closeGroup? depth rest).map fun found =>
      (c :: found.1, found.2) := by
  rw [closeGroup?]
  · exact hopen
  · exact fun _ h => hclose h
  · exact fun _ _ h => hclose h

/-- A balanced text belongs to the group, whatever is open. -/
theorem IsBalanced.closeGroup?_append {text : CodeText} (h : IsBalanced text) (depth : Nat)
    (more : CodeText) : closeGroup? depth (text ++ more) = (closeGroup? depth more).map fun found =>
      (text ++ found.1, found.2) := by
  induction h generalizing depth more with
  | nil => simp
  | plain hopen hclose _ ih =>
      rw [List.cons_append, closeGroup?_plain hopen hclose, ih, Option.map_map]
      rfl
  | @group body rest _ _ ihbody ih =>
      rw [List.cons_append, List.append_assoc, List.cons_append, closeGroup?, ihbody, closeGroup?,
        ih, Option.map_map, Option.map_map, Option.map_map]
      congr 1
      funext found
      simp

/-- A group ends after its balanced body. -/
theorem IsBalanced.closeGroup?_close {body : CodeText} (h : IsBalanced body) (rest : CodeText) :
    closeGroup? 0 (body ++ .scalar '}' :: rest) = some (body, rest) := by
  rw [h.closeGroup?_append, closeGroup?]
  simp

/-- A character in front of what is found belongs to the body. -/
theorem exists_of_map_cons {c : CodePoint} {found? : Option (CodeText × CodeText)}
    {body after : CodeText}
    (h : (found?.map fun found => (c :: found.1, found.2)) = some (body, after)) :
    ∃ body', found? = some (body', after) ∧ body = c :: body' := by
  obtain ⟨⟨body', after'⟩, hfound, heq⟩ := Option.map_eq_some_iff.mp h
  obtain ⟨rfl, rfl⟩ := Prod.mk.inj heq
  exact ⟨body', hfound, rfl⟩

/-- Where several groups are open the innermost one ends first, after a balanced text. -/
theorem exists_of_closeGroup?_succ {depth : Nat} {text body after : CodeText}
    (h : closeGroup? (depth + 1) text = some (body, after)) :
    ∃ inner rest body', IsBalanced inner ∧ text = inner ++ .scalar '}' :: rest ∧
      closeGroup? depth rest = some (body', after) ∧
      body = inner ++ .scalar '}' :: body' := by
  -- What follows an inner group is searched again, so the induction is on the length.
  induction hlength : text.length using Nat.strong_induction_on
    generalizing depth text body with
  | _ length ih =>
  subst hlength
  cases text with
  | nil => cases h
  | cons c text =>
      by_cases hopen : c = .scalar '{'
      · subst hopen
        rw [closeGroup?] at h
        obtain ⟨found, hfound, rfl⟩ := exists_of_map_cons h
        obtain ⟨first, text', found', hfirst, rfl, hfound', rfl⟩ :=
          ih text.length (by simp) hfound rfl
        obtain ⟨second, rest, body', hsecond, rfl, hbody', rfl⟩ :=
          ih text'.length (by simp only [List.length_cons, List.length_append]; omega) hfound' rfl
        exact ⟨_, rest, body', .group hfirst hsecond, by simp, hbody', by simp⟩
      · by_cases hclose : c = .scalar '}'
        · subst hclose
          rw [closeGroup?] at h
          obtain ⟨body', hbody', rfl⟩ := exists_of_map_cons h
          exact ⟨[], text, body', .nil, rfl, hbody', rfl⟩
        · rw [closeGroup?_plain hopen hclose] at h
          obtain ⟨found, hfound, rfl⟩ := exists_of_map_cons h
          obtain ⟨inner, rest, body', hinner, rfl, hbody', rfl⟩ :=
            ih text.length (by simp) hfound rfl
          exact ⟨c :: inner, rest, body', .plain hopen hclose hinner, rfl, hbody', rfl⟩

/-- The body of a group that is found is balanced. -/
theorem isBalanced_of_closeGroup? {text body after : CodeText}
    (h : closeGroup? 0 text = some (body, after)) : IsBalanced body := by
  induction hlength : text.length using Nat.strong_induction_on generalizing text body with
  | _ length ih =>
  subst hlength
  cases text with
  | nil => cases h
  | cons c text =>
      by_cases hopen : c = .scalar '{'
      · subst hopen
        rw [closeGroup?] at h
        obtain ⟨found, hfound, rfl⟩ := exists_of_map_cons h
        obtain ⟨inner, rest, body', hinner, rfl, hbody', rfl⟩ := exists_of_closeGroup?_succ hfound
        have hshorter : rest.length < (.scalar '{' :: (inner ++ .scalar '}' :: rest)).length := by
          simp only [List.length_cons, List.length_append]
          omega
        exact .group hinner (ih rest.length hshorter hbody' rfl)
      · by_cases hclose : c = .scalar '}'
        · subst hclose
          rw [closeGroup?] at h
          obtain ⟨rfl, -⟩ := Prod.mk.inj (Option.some.inj h)
          exact .nil
        · rw [closeGroup?_plain hopen hclose] at h
          obtain ⟨found, hfound, rfl⟩ := exists_of_map_cons h
          exact .plain hopen hclose (ih text.length (by simp) hfound rfl)

/-- The end of a group is found exactly after a balanced text. -/
theorem closeGroup?_eq_some_iff {text body after : CodeText} :
    closeGroup? 0 text = some (body, after) ↔
      IsBalanced body ∧ text = body ++ .scalar '}' :: after := by
  constructor
  · exact fun h => ⟨isBalanced_of_closeGroup? h, closeGroup_eq h⟩
  · rintro ⟨hbody, rfl⟩
    exact hbody.closeGroup?_close after

/-- A group ends at one place only. -/
theorem IsBalanced.eq_of_close_eq {body body' rest rest' : CodeText} (h : IsBalanced body)
    (h' : IsBalanced body') (heq : body ++ .scalar '}' :: rest = body' ++ .scalar '}' :: rest') :
    body = body' ∧ rest = rest' := by
  have hclose := h.closeGroup?_close rest
  rw [heq, h'.closeGroup?_close rest'] at hclose
  obtain ⟨rfl, rfl⟩ := Prod.mk.inj (Option.some.inj hclose)
  exact ⟨rfl, rfl⟩

/-- A balanced text goes on balanced after a character that opens no group. -/
theorem IsBalanced.of_cons {c : CodePoint} {rest : CodeText} (h : IsBalanced (c :: rest))
    (hc : c ≠ .scalar '{') : IsBalanced rest := by
  cases h with
  | plain _ _ h => exact h
  | group _ _ => exact absurd rfl hc

/-- A balanced text starts with no closing brace. -/
theorem IsBalanced.ne_close {c : CodePoint} {rest : CodeText} (h : IsBalanced (c :: rest)) :
    c ≠ .scalar '}' := by
  cases h with
  | plain _ hclose _ => exact hclose
  | group _ _ => simp

/-- A balanced text that starts with a brace starts with a group. -/
theorem IsBalanced.exists_of_brace {text : CodeText} (h : IsBalanced (.scalar '{' :: text)) :
    ∃ body rest, IsBalanced body ∧ IsBalanced rest ∧ text = body ++ .scalar '}' :: rest := by
  cases h with
  | plain hopen _ _ => exact absurd rfl hopen
  | group hbody h => exact ⟨_, _, hbody, h, rfl⟩

/-- A balanced text goes on balanced after a group. -/
theorem IsBalanced.of_group {body rest : CodeText}
    (h : IsBalanced (.scalar '{' :: (body ++ .scalar '}' :: rest))) (hbody : IsBalanced body) :
    IsBalanced rest := by
  obtain ⟨body', rest', hbody', hrest', heq⟩ := h.exists_of_brace
  obtain ⟨-, rfl⟩ := hbody.eq_of_close_eq hbody' heq
  exact hrest'

/-! ## Alternatives -/

/-- Puts a text in front of the first text of a list. -/
def appendFirst (text : CodeText) : List CodeText → List CodeText
  | [] => [text]
  | first :: rest => (text ++ first) :: rest

/-- A character in front. -/
theorem consFirst_eq (c : CodePoint) (texts : List CodeText) :
    consFirst c texts = appendFirst [c] texts := by
  cases texts <;> rfl

/-- A text in front of a text in front. -/
theorem appendFirst_appendFirst (text text' : CodeText) (texts : List CodeText) :
    appendFirst text (appendFirst text' texts) = appendFirst (text ++ text') texts := by
  cases texts <;> simp [appendFirst]

/-- There is always a first alternative. -/
theorem splitOptions_ne_nil (depth : Nat) (text : CodeText) : splitOptions depth text ≠ [] := by
  have hcons : ∀ (c : CodePoint) (texts : List CodeText), consFirst c texts ≠ [] := by
    intro c texts
    cases texts <;> exact List.cons_ne_nil _ _
  fun_induction splitOptions depth text with
  | case1 | case3 => exact List.cons_ne_nil _ _
  | case2 | case4 | case5 => exact hcons _ _

/-- A character that is no brace belongs to the first alternative, a comma only within groups. -/
theorem splitOptions_plain {c : CodePoint} (hopen : c ≠ .scalar '{') (hclose : c ≠ .scalar '}')
    {depth : Nat} (hcomma : depth = 0 → c ≠ .scalar ',') (rest : CodeText) :
    splitOptions depth (c :: rest) = consFirst c (splitOptions depth rest) := by
  rw [splitOptions]
  · exact hopen
  · exact hclose
  · exact hcomma

/-- A balanced text within a group belongs to the first alternative. -/
theorem IsBalanced.splitOptions_append {text : CodeText} (h : IsBalanced text) (depth : Nat)
    (more : CodeText) :
    splitOptions (depth + 1) (text ++ more) = appendFirst text (splitOptions (depth + 1) more) := by
  induction h generalizing depth more with
  | nil =>
      obtain ⟨first, others, hfirst⟩ := List.exists_cons_of_ne_nil
        (splitOptions_ne_nil (depth + 1) more)
      rw [hfirst]
      exact hfirst
  | plain hopen hclose _ ih =>
      rw [List.cons_append, splitOptions_plain hopen hclose (fun hdepth => by cases hdepth), ih,
        consFirst_eq, appendFirst_appendFirst]
      rfl
  | @group body rest _ _ ihbody ih =>
      rw [List.cons_append, List.append_assoc, List.cons_append, splitOptions, ihbody, splitOptions,
        Nat.add_sub_cancel, ih, consFirst_eq, consFirst_eq, appendFirst_appendFirst,
        appendFirst_appendFirst, appendFirst_appendFirst]
      simp

/-- A text without commas of its own belongs to the first alternative. -/
theorem IsOption.splitOptions_append {text : CodeText} (h : IsOption text) (more : CodeText) :
    splitOptions 0 (text ++ more) = appendFirst text (splitOptions 0 more) := by
  induction h generalizing more with
  | nil =>
      obtain ⟨first, others, hfirst⟩ := List.exists_cons_of_ne_nil (splitOptions_ne_nil 0 more)
      rw [hfirst]
      exact hfirst
  | plain hopen hclose hcomma _ ih =>
      rw [List.cons_append, splitOptions_plain hopen hclose (fun _ => hcomma), ih,
        consFirst_eq, appendFirst_appendFirst]
      rfl
  | @group body rest hbody _ ih =>
      rw [List.cons_append, List.append_assoc, List.cons_append, splitOptions,
        hbody.splitOptions_append, splitOptions, ih, consFirst_eq, consFirst_eq,
        appendFirst_appendFirst, appendFirst_appendFirst, appendFirst_appendFirst]
      simp

/-- Alternatives with commas between them are split into these alternatives. -/
theorem splitOptions_withCommas {option : CodeText} {options : List CodeText}
    (h : ∀ o ∈ option :: options, IsOption o) :
    splitOptions 0 (withCommas (option :: options)) = option :: options := by
  induction options generalizing option with
  | nil =>
      have hsplit := (List.forall_mem_singleton.mp h).splitOptions_append []
      simpa [withCommas, splitOptions, appendFirst] using hsplit
  | cons next options ih =>
      obtain ⟨hoption, hrest⟩ := List.forall_mem_cons.mp h
      rw [withCommas_cons_cons, hoption.splitOptions_append, splitOptions, ih hrest, appendFirst,
        List.append_nil]

end KeyOrder.Glob
