import KeyOrder.Proofs.BraceTexts
/-!
# How many choices a pattern asks for

Expanding a pattern makes one choice after another, each within the one before.  How many
there are along the longest way can be told from the pattern alone: one for a group, those
within its alternatives, and those behind it.  So a bound on the choices refuses exactly the
patterns that ask for more, whatever the bound is, and the others stand for the texts that
they denote.
-/

namespace KeyOrder.Glob

/-! ## Choices one after another -/

/-- How many choices a pattern with a choice asks for. -/
theorem choicesIn_of_some {pattern : CodeText} {choice : Choice}
    (h : firstChoice? pattern = some choice) :
    choicesIn pattern = 1 + ((splitOptions 0 choice.body).map choicesIn).foldl max 0 +
      choicesIn choice.after := by
  rw [choicesIn]
  split
  · next hnone =>
    rw [h] at hnone
    cases hnone
  · next found hsome =>
    obtain rfl := Option.some.inj (h.symm.trans hsome)
    rw [List.attach_map_val]

/-- The empty text asks for no choices. -/
theorem choicesIn_nil : choicesIn [] = 0 :=
  choicesIn_of_none (by rw [firstChoice?])

/-- What stands in front of the first choice does not count. -/
theorem choicesIn_of_extend {pattern rest front : CodeText}
    (h : firstChoice? pattern = (firstChoice? rest).map (Choice.extend front)) :
    choicesIn pattern = choicesIn rest := by
  cases hrest : firstChoice? rest with
  | none =>
      rw [hrest, Option.map_none] at h
      rw [choicesIn_of_none h, choicesIn_of_none hrest]
  | some choice =>
      rw [hrest, Option.map_some] at h
      rw [choicesIn_of_some h, choicesIn_of_some hrest]
      rfl

/-- A group with a comma asks for one choice more than one of its alternatives. -/
theorem choicesIn_choice {options : List CodeText} (htwo : 2 ≤ options.length)
    (hoptions : ∀ option ∈ options, IsOption option) (rest : CodeText) :
    choicesIn (.scalar '{' :: (withCommas options ++ .scalar '}' :: rest))
      = 1 + (options.map choicesIn).foldl max 0 + choicesIn rest := by
  obtain ⟨hsplit, hfirst⟩ := firstChoice?_choice htwo hoptions rest
  rw [choicesIn_of_some hfirst, hsplit]

/-- A balanced text asks for its choices before those of what follows. -/
theorem IsBalanced.choicesIn_append {text : CodeText} (h : IsBalanced text) (rest : CodeText) :
    choicesIn (text ++ rest) = choicesIn text + choicesIn rest := by
  induction h with
  | nil => rw [List.nil_append, choicesIn_nil, Nat.zero_add]
  | plain hopen _ _ ih =>
      rw [List.cons_append, choicesIn_of_extend (firstChoice?_cons hopen _), ih,
        choicesIn_of_extend (firstChoice?_cons hopen _)]
  | @group body after hbody _ _ ih =>
      rw [List.cons_append, List.append_assoc, List.cons_append]
      obtain ⟨option, options, hoptions, rfl⟩ := hbody.exists_options
      cases options with
      | nil =>
          have hone : withCommas [option] = option := by simp [withCommas]
          have hoption := List.forall_mem_singleton.mp hoptions
          rw [hone, choicesIn_of_extend (firstChoice?_group hoption _), ih,
            choicesIn_of_extend (firstChoice?_group hoption _)]
      | cons next options =>
          rw [choicesIn_choice (by simp) hoptions, choicesIn_choice (by simp) hoptions, ih]
          omega

/-- With an alternative in place a pattern asks for the choices of the alternative and of what
follows the group. -/
theorem choicesIn_with {pattern : CodeText} {choice : Choice}
    (h : firstChoice? pattern = some choice) {option : CodeText} (hoption : IsBalanced option) :
    choicesIn (choice.with option) = choicesIn option + choicesIn choice.after := by
  obtain ⟨texts, htexts⟩ := exists_denotes pattern
  induction htexts generalizing choice with
  | nil => simp [firstChoice?] at h
  | @literal c rest texts hc _ ih =>
      rw [firstChoice?_cons hc, Option.map_eq_some_iff] at h
      obtain ⟨inner, hinner, rfl⟩ := h
      exact (choicesIn_of_extend (firstChoice?_cons hc _)).trans (ih hinner)
  | @group body rest texts hbody _ ih =>
      rw [firstChoice?_group hbody, Option.map_eq_some_iff] at h
      obtain ⟨inner, hinner, rfl⟩ := h
      have hwith : (inner.extend (.scalar '{' :: (body ++ [.scalar '}']))).with option
          = .scalar '{' :: (body ++ .scalar '}' :: inner.with option) := by
        simp [Choice.with, Choice.extend]
      rw [hwith, choicesIn_of_extend (firstChoice?_group hbody _)]
      exact ih hinner
  | @choice options rest texts denoted htwo hoptions _ _ _ _ =>
      obtain rfl := Option.some.inj ((firstChoice?_choice htwo hoptions rest).2.symm.trans h)
      exact hoption.choicesIn_append rest
  | unclosed hnone =>
      rw [firstChoice?_unclosed hnone] at h
      cases h

/-- Numbers that all grow alike have a greatest one that has grown so. -/
theorem foldl_max_map_add (numbers : List ℕ) (start more : ℕ) :
    (numbers.map (· + more)).foldl max (start + more) = numbers.foldl max start + more := by
  induction numbers generalizing start with
  | nil => rfl
  | cons number numbers ih =>
      rw [List.map_cons, List.foldl_cons, List.foldl_cons, Nat.add_max_add_right, ih]

/-- The choices that a pattern asks for are the steps of the longest way of expanding it: the first
choice, and the choices that the pattern asks for with an alternative in place. -/
theorem choicesIn_eq_of_some {pattern : CodeText} {choice : Choice}
    (h : firstChoice? pattern = some choice) :
    choicesIn pattern = 1 + ((splitOptions 0 choice.body).map fun option =>
      choicesIn (choice.with option)).foldl max 0 := by
  obtain ⟨htwo, hoptions⟩ := isOption_of_firstChoice? h
  have hwith : ∀ option ∈ splitOptions 0 choice.body,
      choicesIn (choice.with option) = choicesIn option + choicesIn choice.after :=
    fun option hoption => choicesIn_with h (hoptions option hoption).isBalanced
  rw [choicesIn_of_some h, List.map_congr_left hwith, Nat.add_assoc]
  congr 1
  -- What follows the group counts once, not once more for the number that the search starts with.
  cases hsplit : splitOptions 0 choice.body with
  | nil => simp [hsplit] at htwo
  | cons first others =>
      rw [List.map_cons, List.map_cons, List.foldl_cons, List.foldl_cons, Nat.zero_max,
        Nat.zero_max, ← foldl_max_map_add, List.map_map]
      rfl

/-! ## A bound on choices -/

/-- Each of some texts is worked on in turn: either all can be, or there is a fault. -/
theorem mapM_ite_eq {α β ε : Type} (p : α → Prop) [DecidablePred p] (f : α → β) (fault : ε)
    (items : List α) :
    (items.mapM fun item => if p item then Except.ok (f item) else Except.error fault)
      = if ∀ item ∈ items, p item then .ok (items.map f) else .error fault := by
  induction items with
  | nil => simp [pure, Except.pure]
  | cons item items ih =>
      rw [List.mapM_cons, ih]
      by_cases hitem : p item
      · by_cases hitems : ∀ item ∈ items, p item
        · rw [if_pos hitem, if_pos hitems, if_pos (List.forall_mem_cons.mpr ⟨hitem, hitems⟩)]
          rfl
        · rw [if_pos hitem, if_neg hitems, if_neg fun h => hitems (List.forall_mem_cons.mp h).2]
          rfl
      · rw [if_neg hitem, if_neg fun h => hitem (List.forall_mem_cons.mp h).1]
        rfl

/-- The greatest of some numbers is within a bound if all of them are. -/
theorem foldl_max_le_iff {numbers : List ℕ} {start bound : ℕ} :
    numbers.foldl max start ≤ bound ↔ start ≤ bound ∧ ∀ number ∈ numbers, number ≤ bound := by
  induction numbers generalizing start with
  | nil => simp
  | cons number numbers ih =>
      rw [List.foldl_cons, ih, max_le_iff, List.forall_mem_cons, and_assoc]

/-- A pattern is expanded within a number of choices exactly if it does not ask for more. -/
theorem expandWithin_eq (bound : ℕ) (pattern : CodeText) :
    expandWithin bound pattern = if choicesIn pattern ≤ bound then .ok (expandBraces pattern)
      else .error .tooManyChoices := by
  induction bound generalizing pattern with
  | zero =>
      rw [expandWithin]
      cases h : firstChoice? pattern with
      | none => simp only [choicesIn_of_none h, expandBraces_of_none h, le_rfl, if_true]
      | some choice =>
          refine (if_neg ?_).symm
          rw [choicesIn_eq_of_some h]
          omega
  | succ bound ih =>
      rw [expandWithin]
      cases h : firstChoice? pattern with
      | none => simp only [choicesIn_of_none h, expandBraces_of_none h, Nat.zero_le, if_true]
      | some choice =>
          have hbound : choicesIn pattern ≤ bound + 1 ↔
              ∀ option ∈ splitOptions 0 choice.body, choicesIn (choice.with option) ≤ bound := by
            rw [choicesIn_eq_of_some h, Nat.add_comm, Nat.add_le_add_iff_right, foldl_max_le_iff,
              List.forall_mem_map]
            exact and_iff_right (Nat.zero_le bound)
          simp only [ih, mapM_ite_eq]
          by_cases hall : choicesIn pattern ≤ bound + 1
          · rw [if_pos hall, if_pos (hbound.mp hall), expandBraces_of_some h, List.flatMap_def,
              ← distinct_eq_eraseDups]
            rfl
          · rw [if_neg hall, if_neg (hbound.not.mp hall)]
            rfl

/-- A pattern stands for what its groups are expanded to, unless it asks for too many choices. -/
theorem alternatives_eq [Platform] (pattern : CodeText) :
    alternatives pattern = if isExpandable pattern then .ok (expandBraces pattern)
      else .error .tooManyChoices := by
  rw [alternatives, expandWithin_eq, isExpandable]
  simp only [decide_eq_true_eq]

end KeyOrder.Glob
