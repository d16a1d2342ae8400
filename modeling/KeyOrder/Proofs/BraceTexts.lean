import KeyOrder.Proofs.BraceGroups
/-!
# What brace groups stand for

A pattern is read once from left to right: characters, groups that are literal, groups
that stand for alternatives, and perhaps a brace that is never closed.  It denotes the
texts that come from taking one text for each part.  Expanding a pattern group by group,
and removing copies each time, gives the same texts in the same order, each where it
first stands; and these texts are not expanded further.
-/

namespace KeyOrder.Glob

/-! ## Denotation -/

/-- Each of some texts with each of others after it; the first ones vary slowest. -/
def pairings (texts texts' : List CodeText) : List CodeText :=
  texts.flatMap fun text => texts'.map (text ++ ·)

/-- The texts that a pattern denotes, one after another. -/
inductive Denotes : CodeText → List CodeText → Prop
  | nil : Denotes [] [[]]
  /-- A closing brace outside of groups stands for itself, like any other character. -/
  | literal {c : CodePoint} {rest : CodeText} {texts : List CodeText} (hc : c ≠ .scalar '{')
      (h : Denotes rest texts) : Denotes (c :: rest) (pairings [[c]] texts)
  /-- A group without a comma of its own stands for itself, with all that it holds. -/
  | group {body rest : CodeText} {texts : List CodeText} (hbody : IsOption body)
      (h : Denotes rest texts) :
      Denotes (.scalar '{' :: (body ++ .scalar '}' :: rest))
        (pairings [.scalar '{' :: (body ++ [.scalar '}'])] texts)
  | choice {options : List CodeText} {rest : CodeText} {texts : List CodeText}
      {denoted : CodeText → List CodeText} (htwo : 2 ≤ options.length)
      (hoptions : ∀ option ∈ options, IsOption option)
      (hdenoted : ∀ option ∈ options, Denotes option (denoted option))
      (h : Denotes rest texts) :
      Denotes (.scalar '{' :: (withCommas options ++ .scalar '}' :: rest))
        (pairings (options.flatMap denoted) texts)
  /-- From a brace on that is never closed all is literal. -/
  | unclosed {rest : CodeText}
      (h : ∀ body after, IsBalanced body → rest ≠ body ++ .scalar '}' :: after) :
      Denotes (.scalar '{' :: rest) [.scalar '{' :: rest]

/-! ## Pairings -/

/-- The empty text in front changes nothing. -/
theorem nil_pairings (texts : List CodeText) : pairings [[]] texts = texts := by
  simp [pairings]

/-- One text in front stands before each of the others. -/
theorem singleton_pairings (text : CodeText) (texts : List CodeText) :
    pairings [text] texts = texts.map (text ++ ·) := by
  simp [pairings]

/-- Pairing can be done in either order. -/
theorem pairings_assoc (texts texts' texts'' : List CodeText) :
    pairings (pairings texts texts') texts'' = pairings texts (pairings texts' texts'') := by
  simp [pairings, List.flatMap_assoc, List.flatMap_map, List.map_flatMap, Function.comp_def]

/-- Pairing what several texts stand for is pairing each of it. -/
theorem flatMap_pairings (options : List CodeText) (denoted : CodeText → List CodeText)
    (texts : List CodeText) :
    pairings (options.flatMap denoted) texts
      = options.flatMap fun option => pairings (denoted option) texts := by
  simp [pairings, List.flatMap_assoc]

/-- A text in front of what several texts stand for is in front of each of it. -/
theorem pairings_flatMap (text : CodeText) (options : List CodeText)
    (denoted : CodeText → List CodeText) :
    pairings [text] (options.flatMap denoted)
      = options.flatMap fun option => pairings [text] (denoted option) := by
  simp [pairings, List.map_flatMap]

/-- A text of a pairing is made of two. -/
theorem mem_pairings {text : CodeText} {texts texts' : List CodeText} :
    text ∈ pairings texts texts' ↔ ∃ s ∈ texts, ∃ s' ∈ texts', s ++ s' = text := by
  simp [pairings]

/-- What holds of each two texts after one another holds of the texts of a pairing. -/
theorem forall_mem_pairings {P : CodeText → Prop} {texts texts' : List CodeText}
    (h : ∀ s ∈ texts, ∀ s' ∈ texts', P (s ++ s')) : ∀ text ∈ pairings texts texts', P text := by
  intro text htext
  obtain ⟨s, hs, s', hs', rfl⟩ := mem_pairings.mp htext
  exact h s hs s' hs'

/-- Something with something is something. -/
theorem pairings_ne_nil {texts texts' : List CodeText} (h : texts ≠ []) (h' : texts' ≠ []) :
    pairings texts texts' ≠ [] := by
  obtain ⟨s, hs⟩ := List.exists_mem_of_ne_nil texts h
  obtain ⟨s', hs'⟩ := List.exists_mem_of_ne_nil texts' h'
  exact List.ne_nil_of_mem (mem_pairings.mpr ⟨s, hs, s', hs', rfl⟩)

/-! ## Every pattern denotes something -/

/-- The search for a choice goes on after a character that opens no group. -/
theorem firstChoice?_cons {c : CodePoint} (hc : c ≠ .scalar '{') (rest : CodeText) :
    firstChoice? (c :: rest) = (firstChoice? rest).map (Choice.extend [c]) := by
  rw [firstChoice?, if_neg hc]

/-- The search for a choice goes on after a group without a comma of its own. -/
theorem firstChoice?_group {body : CodeText} (hbody : IsOption body) (rest : CodeText) :
    firstChoice? (.scalar '{' :: (body ++ .scalar '}' :: rest))
      = (firstChoice? rest).map (Choice.extend (.scalar '{' :: (body ++ [.scalar '}']))) := by
  have hclose := hbody.isBalanced.closeGroup?_close rest
  have hone : splitOptions 0 body = [body] := by
    simpa [withCommas] using splitOptions_withCommas (List.forall_mem_singleton.mpr hbody)
  rw [firstChoice?, if_pos rfl]
  split
  · next hnone =>
    rw [hclose] at hnone
    cases hnone
  · next hsome =>
    rw [hclose] at hsome
    cases hsome
    rw [hone, if_neg (by simp)]

/-- A group with a comma of its own is a choice. -/
theorem firstChoice?_choice {options : List CodeText} (htwo : 2 ≤ options.length)
    (hoptions : ∀ option ∈ options, IsOption option) (rest : CodeText) :
    splitOptions 0 (withCommas options) = options ∧
      firstChoice? (.scalar '{' :: (withCommas options ++ .scalar '}' :: rest))
        = some ⟨[], withCommas options, rest⟩ := by
  have hsplit : splitOptions 0 (withCommas options) = options := by
    cases options with
    | nil => simp at htwo
    | cons option options => exact splitOptions_withCommas hoptions
  refine ⟨hsplit, firstChoice?_of_closeGroup? ?_ (by rwa [hsplit])⟩
  exact (isBalanced_withCommas hoptions).closeGroup?_close rest

/-- Nothing is a choice after a brace that is never closed. -/
theorem firstChoice?_unclosed {rest : CodeText}
    (h : ∀ body after, IsBalanced body → rest ≠ body ++ .scalar '}' :: after) :
    firstChoice? (.scalar '{' :: rest) = none := by
  rw [firstChoice?, if_pos rfl]
  split
  · rfl
  · next hsome =>
    obtain ⟨hbody, heq⟩ := closeGroup?_eq_some_iff.mp hsome
    exact absurd heq (h _ _ hbody)

/-- Every pattern denotes some texts. -/
theorem exists_denotes (pattern : CodeText) : ∃ texts, Denotes pattern texts := by
  induction hlength : pattern.length using Nat.strong_induction_on generalizing pattern with
  | _ length ih =>
  subst hlength
  cases pattern with
  | nil => exact ⟨_, .nil⟩
  | cons c rest =>
      by_cases hc : c = .scalar '{'
      · subst hc
        by_cases hclosed : ∃ body after, IsBalanced body ∧ rest = body ++ .scalar '}' :: after
        · obtain ⟨body, after, hbody, rfl⟩ := hclosed
          obtain ⟨texts, htexts⟩ := ih after.length (by
            simp only [List.length_cons, List.length_append]
            omega) after rfl
          obtain ⟨option, options, hoptions, rfl⟩ := hbody.exists_options
          cases options with
          | nil =>
              have hone : withCommas [option] = option := by simp [withCommas]
              rw [hone]
              exact ⟨_, .group (List.forall_mem_singleton.mp hoptions) htexts⟩
          | cons next options =>
              have hsplit := splitOptions_withCommas hoptions
              have hdenoted : ∀ o ∈ option :: next :: options, ∃ texts, Denotes o texts := by
                intro o ho
                rw [← hsplit] at ho
                have hle := length_of_mem_splitOptions o ho
                exact ih o.length (by
                  simp only [List.length_cons, List.length_append]
                  omega) o rfl
              choose! denoted hdenoted using hdenoted
              exact ⟨_, .choice (by simp) hoptions hdenoted htexts⟩
        · push Not at hclosed
          exact ⟨_, .unclosed hclosed⟩
      · obtain ⟨texts, htexts⟩ := ih rest.length (by simp) rest rfl
        exact ⟨_, .literal hc htexts⟩

/-! ## Every pattern denotes one list of texts -/

/-- Two or more alternatives with commas between them have a comma of their own. -/
theorem not_isOption_withCommas {options : List CodeText} (htwo : 2 ≤ options.length)
    (hoptions : ∀ option ∈ options, IsOption option) : ¬ IsOption (withCommas options) := by
  intro h
  have hone := splitOptions_withCommas (List.forall_mem_singleton.mpr h)
  rw [show withCommas [withCommas options] = withCommas options by simp [withCommas],
    (firstChoice?_choice htwo hoptions []).1] at hone
  rw [hone] at htwo
  simp at htwo

/-- No pattern denotes different texts. -/
theorem Denotes.unique {pattern : CodeText} {texts texts' : List CodeText}
    (h : Denotes pattern texts) (h' : Denotes pattern texts') : texts = texts' := by
  induction h generalizing texts' with
  | nil => cases h'; rfl
  | literal hc _ ih =>
      cases h' with
      | literal _ h' => rw [ih h']
      | group _ _ | choice _ _ _ _ | unclosed _ => exact absurd rfl hc
  | @group body rest texts hbody _ ih =>
      generalize hpattern : CodePoint.scalar '{' :: (body ++ .scalar '}' :: rest) = pattern at h'
      cases h' with
      | nil => cases hpattern
      | literal hc _ => exact absurd (List.cons.inj hpattern).1.symm hc
      | group hbody' h' =>
          obtain ⟨rfl, rfl⟩ := hbody.isBalanced.eq_of_close_eq hbody'.isBalanced
            (List.cons.inj hpattern).2
          rw [ih h']
      | choice htwo hoptions _ _ =>
          obtain ⟨rfl, -⟩ := hbody.isBalanced.eq_of_close_eq (isBalanced_withCommas hoptions)
            (List.cons.inj hpattern).2
          exact absurd hbody (not_isOption_withCommas htwo hoptions)
      | unclosed hnone =>
          exact absurd (List.cons.inj hpattern).2.symm (hnone _ _ hbody.isBalanced)
  | @choice options rest texts denoted htwo hoptions _ _ ihoptions ih =>
      generalize hpattern :
        CodePoint.scalar '{' :: (withCommas options ++ .scalar '}' :: rest) = pattern at h'
      have hbalanced := isBalanced_withCommas hoptions
      cases h' with
      | nil => cases hpattern
      | literal hc _ => exact absurd (List.cons.inj hpattern).1.symm hc
      | group hbody' _ =>
          obtain ⟨rfl, -⟩ := hbalanced.eq_of_close_eq hbody'.isBalanced (List.cons.inj hpattern).2
          exact absurd hbody' (not_isOption_withCommas htwo hoptions)
      | @choice options' _ _ denoted' htwo' hoptions' hdenoted' h' =>
          obtain ⟨heq, rfl⟩ := hbalanced.eq_of_close_eq (isBalanced_withCommas hoptions')
            (List.cons.inj hpattern).2
          obtain rfl : options = options' := by
            rw [← (firstChoice?_choice htwo hoptions []).1, heq,
              (firstChoice?_choice htwo' hoptions' []).1]
          rw [ih h', List.flatMap_congr fun option hoption =>
            ihoptions option hoption (hdenoted' option hoption)]
      | unclosed hnone => exact absurd (List.cons.inj hpattern).2.symm (hnone _ _ hbalanced)
  | @unclosed rest hnone =>
      generalize hpattern : CodePoint.scalar '{' :: rest = pattern at h'
      cases h' with
      | nil => cases hpattern
      | literal hc _ => exact absurd (List.cons.inj hpattern).1.symm hc
      | group hbody' _ => exact absurd (List.cons.inj hpattern).2 (hnone _ _ hbody'.isBalanced)
      | choice _ hoptions' _ _ =>
          exact absurd (List.cons.inj hpattern).2 (hnone _ _ (isBalanced_withCommas hoptions'))
      | unclosed _ => rfl

/-! ## Texts one after another -/

/-- A balanced text with another one after it denotes what they denote, paired. -/
theorem Denotes.append {text rest : CodeText} {texts texts' : List CodeText}
    (h : Denotes text texts) (hbalanced : IsBalanced text) (h' : Denotes rest texts') :
    Denotes (text ++ rest) (pairings texts texts') := by
  induction h with
  | nil =>
      rw [nil_pairings]
      exact h'
  | literal hc _ ih =>
      rw [pairings_assoc]
      exact .literal hc (ih (hbalanced.of_cons hc))
  | group hbody _ ih =>
      rw [pairings_assoc, List.cons_append, List.append_assoc, List.cons_append]
      exact .group hbody (ih (hbalanced.of_group hbody.isBalanced))
  | choice htwo hoptions hdenoted _ _ ih =>
      rw [pairings_assoc, List.cons_append, List.append_assoc, List.cons_append]
      exact .choice htwo hoptions hdenoted
        (ih (hbalanced.of_group (isBalanced_withCommas hoptions)))
  | unclosed hnone =>
      obtain ⟨body, after, hbody, -, heq⟩ := hbalanced.exists_of_brace
      exact absurd heq (hnone body after hbody)

/-- What a balanced text denotes is balanced. -/
theorem Denotes.isBalanced {text : CodeText} {texts : List CodeText} (h : Denotes text texts)
    (hbalanced : IsBalanced text) : ∀ t ∈ texts, IsBalanced t := by
  induction h with
  | nil => exact List.forall_mem_singleton.mpr .nil
  | literal hc _ ih =>
      have hrest := ih (hbalanced.of_cons hc)
      refine forall_mem_pairings (List.forall_mem_singleton.mpr fun s' hs' => ?_)
      exact .plain hc hbalanced.ne_close (hrest s' hs')
  | group hbody _ ih =>
      have hrest := ih (hbalanced.of_group hbody.isBalanced)
      refine forall_mem_pairings (List.forall_mem_singleton.mpr fun s' hs' => ?_)
      exact (IsBalanced.group hbody.isBalanced .nil).append (hrest s' hs')
  | choice htwo hoptions _ _ ihoptions ih =>
      have hrest := ih (hbalanced.of_group (isBalanced_withCommas hoptions))
      refine forall_mem_pairings fun s hs s' hs' => ?_
      obtain ⟨option, hoption, hs⟩ := List.mem_flatMap.mp hs
      exact (ihoptions option hoption (hoptions option hoption).isBalanced s hs).append
        (hrest s' hs')
  | unclosed _ => exact List.forall_mem_singleton.mpr hbalanced

/-- The texts that a pattern denotes denote nothing but themselves. -/
theorem Denotes.self {pattern : CodeText} {texts : List CodeText} (h : Denotes pattern texts) :
    ∀ text ∈ texts, Denotes text [text] := by
  induction h with
  | nil => exact List.forall_mem_singleton.mpr .nil
  | literal hc _ ih =>
      refine forall_mem_pairings (List.forall_mem_singleton.mpr fun s' hs' => ?_)
      exact .literal hc (ih s' hs')
  | @group body rest texts hbody _ ih =>
      refine forall_mem_pairings (List.forall_mem_singleton.mpr fun s' hs' => ?_)
      have hself := Denotes.group hbody (ih s' hs')
      simpa [pairings] using hself
  | choice _ hoptions hdenoted _ ihoptions ih =>
      refine forall_mem_pairings fun s hs s' hs' => ?_
      obtain ⟨option, hoption, hs⟩ := List.mem_flatMap.mp hs
      have hbalanced : IsBalanced s :=
        (hdenoted option hoption).isBalanced (hoptions option hoption).isBalanced s hs
      exact (ihoptions option hoption s hs).append hbalanced (ih s' hs')
  | unclosed hnone => exact List.forall_mem_singleton.mpr (.unclosed hnone)

/-- Every pattern denotes at least one text. -/
theorem Denotes.ne_nil {pattern : CodeText} {texts : List CodeText} (h : Denotes pattern texts) :
    texts ≠ [] := by
  induction h with
  | nil | unclosed _ => exact List.cons_ne_nil _ _
  | literal _ _ ih | group _ _ ih => exact pairings_ne_nil (List.cons_ne_nil _ _) ih
  | @choice options _ _ denoted htwo _ _ _ ihoptions ih =>
      refine pairings_ne_nil ?_ ih
      obtain ⟨option, hoption⟩ := List.exists_mem_of_ne_nil options (by rintro rfl; simp at htwo)
      obtain ⟨s, hs⟩ := List.exists_mem_of_ne_nil _ (ihoptions option hoption)
      exact List.ne_nil_of_mem (List.mem_flatMap.mpr ⟨option, hoption, hs⟩)

/-! ## One group after another -/

/-- A pattern without a choice denotes itself. -/
theorem Denotes.eq_of_none {pattern : CodeText} {texts : List CodeText} (h : Denotes pattern texts)
    (hnone : firstChoice? pattern = none) : texts = [pattern] := by
  induction h with
  | nil | unclosed _ => rfl
  | literal hc _ ih =>
      rw [firstChoice?_cons hc, Option.map_eq_none_iff] at hnone
      rw [ih hnone, singleton_pairings]
      rfl
  | group hbody _ ih =>
      rw [firstChoice?_group hbody, Option.map_eq_none_iff] at hnone
      rw [ih hnone, singleton_pairings]
      simp
  | choice htwo hoptions _ _ _ _ =>
      rw [(firstChoice?_choice htwo hoptions _).2] at hnone
      cases hnone

/-- The first choice has two alternatives at least, and none of them has a comma of its own. -/
theorem isOption_of_firstChoice? {pattern : CodeText} {choice : Choice}
    (h : firstChoice? pattern = some choice) :
    2 ≤ (splitOptions 0 choice.body).length ∧
      ∀ option ∈ splitOptions 0 choice.body, IsOption option := by
  obtain ⟨texts, htexts⟩ := exists_denotes pattern
  induction htexts generalizing choice with
  | nil => simp [firstChoice?] at h
  | literal hc _ ih =>
      rw [firstChoice?_cons hc, Option.map_eq_some_iff] at h
      obtain ⟨inner, hinner, rfl⟩ := h
      have hbody := ih hinner
      exact hbody
  | group hbody _ ih =>
      rw [firstChoice?_group hbody, Option.map_eq_some_iff] at h
      obtain ⟨inner, hinner, rfl⟩ := h
      have hbody := ih hinner
      exact hbody
  | @choice options rest _ _ htwo hoptions _ _ _ _ =>
      obtain ⟨hsplit, hfirst⟩ := firstChoice?_choice htwo hoptions rest
      obtain rfl := Option.some.inj (hfirst.symm.trans h)
      rw [hsplit]
      exact ⟨htwo, hoptions⟩
  | unclosed hnone =>
      rw [firstChoice?_unclosed hnone] at h
      cases h

/-- A pattern with a choice denotes what it denotes with each of the alternatives. -/
theorem Denotes.exists_of_some {pattern : CodeText} {texts : List CodeText} {choice : Choice}
    (h : Denotes pattern texts) (hsome : firstChoice? pattern = some choice) :
    ∃ denoted : CodeText → List CodeText,
      (∀ option ∈ splitOptions 0 choice.body, Denotes (choice.with option) (denoted option)) ∧
        texts = (splitOptions 0 choice.body).flatMap denoted := by
  induction h generalizing choice with
  | nil => simp [firstChoice?] at hsome
  | @literal c rest texts hc _ ih =>
      rw [firstChoice?_cons hc, Option.map_eq_some_iff] at hsome
      obtain ⟨inner, hinner, rfl⟩ := hsome
      obtain ⟨denoted, hdenoted, rfl⟩ := ih hinner
      refine ⟨fun option => pairings [[c]] (denoted option), fun option hoption => ?_,
        pairings_flatMap _ _ _⟩
      exact .literal hc (hdenoted option hoption)
  | @group body rest texts hbody _ ih =>
      rw [firstChoice?_group hbody, Option.map_eq_some_iff] at hsome
      obtain ⟨inner, hinner, rfl⟩ := hsome
      obtain ⟨denoted, hdenoted, rfl⟩ := ih hinner
      refine ⟨fun option => pairings [_] (denoted option), fun option hoption => ?_,
        pairings_flatMap _ _ _⟩
      have hgroup := Denotes.group hbody (hdenoted option hoption)
      simpa [Choice.with, Choice.extend] using hgroup
  | @choice options rest texts denoted htwo hoptions hdenoted hrest _ _ =>
      obtain ⟨hsplit, hfirst⟩ := firstChoice?_choice htwo hoptions rest
      obtain rfl := Option.some.inj (hfirst.symm.trans hsome)
      rw [hsplit]
      refine ⟨fun option => pairings (denoted option) texts, fun option hoption => ?_,
        flatMap_pairings _ _ _⟩
      exact (hdenoted option hoption).append (hoptions option hoption).isBalanced hrest
  | unclosed hnone =>
      rw [firstChoice?_unclosed hnone] at hsome
      cases hsome

/-! ## Copies -/

/-- Copies go away before or after others are left out. -/
theorem eraseDups_filter (keep : CodeText → Bool) (texts : List CodeText) :
    (texts.filter keep).eraseDups = texts.eraseDups.filter keep := by
  induction hlength : texts.length using Nat.strong_induction_on generalizing texts with
  | _ length ih =>
  subst hlength
  cases texts with
  | nil => rfl
  | cons text texts =>
      have hrest := ih (texts.filter fun t => !t == text).length
        (Nat.lt_succ_of_le (List.length_filter_le _ _)) _ rfl
      rw [List.eraseDups_cons]
      cases hkeep : keep text with
      | true =>
          rw [List.filter_cons_of_pos hkeep, List.filter_cons_of_pos hkeep, List.eraseDups_cons,
            ← hrest, List.filter_filter, List.filter_filter]
          simp only [Bool.and_comm]
      | false =>
          rw [List.filter_cons_of_neg (by simp [hkeep]), List.filter_cons_of_neg (by simp [hkeep]),
            ← hrest, List.filter_filter]
          congr 1
          refine List.filter_congr fun t _ => ?_
          by_cases ht : t = text
          · rw [ht, hkeep, Bool.false_and]
          · simp [ht]

/-- Copies go away once and for all. -/
theorem eraseDups_eraseDups (texts : List CodeText) :
    texts.eraseDups.eraseDups = texts.eraseDups := by
  induction hlength : texts.length using Nat.strong_induction_on generalizing texts with
  | _ length ih =>
  subst hlength
  cases texts with
  | nil => rfl
  | cons text texts =>
      have hrest := ih (texts.filter fun t => !t == text).length
        (Nat.lt_succ_of_le (List.length_filter_le _ _)) _ rfl
      rw [List.eraseDups_cons, List.eraseDups_cons, eraseDups_filter, hrest, eraseDups_filter,
        List.filter_filter]
      simp only [Bool.and_self]

/-- Copies may go away in each part before they go away in the whole. -/
theorem eraseDups_flatMap_eraseDups (denoted : CodeText → List CodeText)
    (options : List CodeText) :
    (options.flatMap fun option => (denoted option).eraseDups).eraseDups
      = (options.flatMap denoted).eraseDups := by
  induction options with
  | nil => rfl
  | cons option options ih =>
      rw [List.flatMap_cons, List.flatMap_cons, List.eraseDups_append, List.eraseDups_append,
        eraseDups_eraseDups, List.removeAll, List.removeAll, eraseDups_filter, eraseDups_filter, ih]
      congr 1
      refine List.filter_congr fun text _ => ?_
      rw [Bool.eq_iff_iff]
      simp only [Bool.not_eq_true', ← Bool.not_eq_true, List.elem_iff, List.mem_eraseDups]

/-! ## Expansion -/

/-- Expanding a pattern gives the texts that it denotes, each where it first stands. -/
theorem Denotes.expandBraces_eq {pattern : CodeText} {texts : List CodeText}
    (h : Denotes pattern texts) : expandBraces pattern = texts.eraseDups := by
  -- A pattern is expanded again with each alternative in place, so the induction is on its length.
  induction hlength : pattern.length using Nat.strong_induction_on generalizing pattern texts with
  | _ length ih =>
  subst hlength
  cases hchoice : firstChoice? pattern with
  | none =>
      rw [expandBraces_of_none hchoice, h.eq_of_none hchoice]
      rfl
  | some choice =>
      obtain ⟨denoted, hdenoted, rfl⟩ := h.exists_of_some hchoice
      have hoption : ∀ option ∈ splitOptions 0 choice.body,
          expandBraces (choice.with option) = (denoted option).eraseDups := by
        intro option hmem
        refine ih (choice.with option).length ?_ (hdenoted option hmem) rfl
        have hle := length_of_mem_splitOptions option hmem
        have heq := congrArg List.length (firstChoice_eq hchoice)
        simp only [Choice.with, List.length_append, List.length_cons] at heq ⊢
        omega
      rw [expandBraces_of_some hchoice, List.flatMap_congr hoption, eraseDups_flatMap_eraseDups]

end KeyOrder.Glob
