import KeyOrder.Store.Walk
import Mathlib
/-!
# Paths as rows of names

A path is a row of names with slashes between them.  Cut at a slash it is two rows, and
split at all of them it is the row again.
-/

namespace KeyOrder

/-- The path of a row of names. -/
def joined (names : List CodeText) : CodeText :=
  [slash].intercalate names

@[simp] theorem joined_nil : joined [] = [] := by
  rfl

@[simp] theorem joined_singleton (name : CodeText) : joined [name] = name :=
  List.intercalate_singleton

/-- A name stands in front of the rest with a slash between them. -/
theorem joined_cons (name : CodeText) {names : List CodeText} (h : names ≠ []) :
    joined (name :: names) = name ++ slash :: joined names := by
  rw [joined, List.intercalate_cons_of_ne_nil h, List.append_assoc, List.singleton_append]
  rfl

/-- The paths of two rows stand one after the other with a slash between them. -/
theorem joined_append {before after : List CodeText} (hbefore : before ≠ []) (hafter : after ≠ []) :
    joined (before ++ after) = joined before ++ slash :: joined after := by
  induction before with
  | nil => exact absurd rfl hbefore
  | cons name names ih =>
      by_cases hnames : names = []
      · subst hnames
        rw [List.singleton_append, joined_cons name hafter, joined_singleton]
      · rw [List.cons_append, joined_cons name (List.append_ne_nil_of_left_ne_nil hnames _),
          joined_cons name hnames, ih hnames, List.append_assoc, List.cons_append]

/-- A character of a path is a slash or stands in one of its names. -/
theorem mem_joined {names : List CodeText} {c : CodePoint} (h : c ∈ joined names) :
    c = slash ∨ ∃ name ∈ names, c ∈ name := by
  induction names with
  | nil => exact absurd h List.not_mem_nil
  | cons name names ih =>
      by_cases hnames : names = []
      · subst hnames
        rw [joined_singleton] at h
        exact Or.inr ⟨name, List.mem_cons_self, h⟩
      · rw [joined_cons name hnames, List.mem_append, List.mem_cons] at h
        rcases h with h | h | h
        · exact Or.inr ⟨name, List.mem_cons_self, h⟩
        · exact Or.inl h
        · rcases ih h with h | ⟨name', hname', h⟩
          · exact Or.inl h
          · exact Or.inr ⟨name', List.mem_cons_of_mem name hname', h⟩

/-- A path is cut at one of its slashes exactly if its row of names is cut. -/
theorem joined_eq_append_iff {names : List CodeText} (hnames : ∀ name ∈ names, slash ∉ name)
    {before after : CodeText} :
    joined names = before ++ slash :: after ↔ ∃ names₁ names₂, names₁ ≠ [] ∧ names₂ ≠ [] ∧
      names₁ ++ names₂ = names ∧ joined names₁ = before ∧ joined names₂ = after := by
  constructor
  · intro h
    induction names generalizing before with
    | nil => simp at h
    | cons name names ih =>
        obtain ⟨hname, hnames⟩ := List.forall_mem_cons.mp hnames
        by_cases hnil : names = []
        · subst hnil
          rw [joined_singleton] at h
          exact absurd (h ▸ List.mem_append_right _ List.mem_cons_self) hname
        · rw [joined_cons name hnil] at h
          -- The cut is at the first slash, or after it; the first name has none.
          rcases List.append_eq_append_iff.mp h with ⟨more, rfl, hmore⟩ | ⟨more, rfl, hmore⟩
          · cases more with
            | nil =>
                refine ⟨[name], names, List.cons_ne_nil _ _, hnil, rfl, ?_, ?_⟩
                · rw [joined_singleton, List.append_nil]
                · exact (List.cons.inj hmore).2
            | cons c more =>
                obtain ⟨rfl, htail⟩ := List.cons.inj hmore
                obtain ⟨names₁, names₂, hnames₁, hnames₂, rfl, rfl, rfl⟩ := ih hnames htail
                exact ⟨name :: names₁, names₂, List.cons_ne_nil _ _, hnames₂, rfl,
                  joined_cons name hnames₁, rfl⟩
          · cases more with
            | nil =>
                refine ⟨[before], names, List.cons_ne_nil _ _, hnil, ?_, joined_singleton _, ?_⟩
                · rw [List.append_nil]
                  rfl
                · exact (List.cons.inj hmore).2.symm
            | cons c more =>
                obtain ⟨rfl, -⟩ := List.cons.inj hmore
                exact absurd (List.mem_append_right _ List.mem_cons_self) hname
  · rintro ⟨names₁, names₂, hnames₁, hnames₂, rfl, rfl, rfl⟩
    exact joined_append hnames₁ hnames₂

/-- A row of names whose path has no slash has at most one name. -/
theorem eq_singleton_of_joined {names : List CodeText} (hne : names ≠ [])
    (h : slash ∉ joined names) : ∃ name, names = [name] := by
  cases names with
  | nil => exact absurd rfl hne
  | cons name names =>
      by_cases hnames : names = []
      · exact ⟨name, hnames ▸ rfl⟩
      · rw [joined_cons name hnames] at h
        exact absurd (List.mem_append_right _ List.mem_cons_self) h

/-- A text without slashes is one name. -/
theorem splitSlashes_of_not_mem {name : CodeText} (h : slash ∉ name) :
    splitSlashes name = [name] := by
  induction name with
  | nil => rfl
  | cons c name ih =>
      obtain ⟨hc, hname⟩ := not_or.mp (List.mem_cons.not.mp h)
      rw [splitSlashes, ih hname]
      exact fun heq => hc heq.symm

/-- A text is split at its first slash. -/
theorem splitSlashes_append {name : CodeText} (h : slash ∉ name) (rest : CodeText) :
    splitSlashes (name ++ slash :: rest) = name :: splitSlashes rest := by
  induction name with
  | nil => rfl
  | cons c name ih =>
      obtain ⟨hc, hname⟩ := not_or.mp (List.mem_cons.not.mp h)
      rw [List.cons_append, splitSlashes, ih hname]
      exact fun heq => hc heq.symm

/-- The path of a row of names is split into these names. -/
theorem splitSlashes_joined {names : List CodeText} (hne : names ≠ [])
    (hnames : ∀ name ∈ names, slash ∉ name) : splitSlashes (joined names) = names := by
  induction names with
  | nil => exact absurd rfl hne
  | cons name names ih =>
      obtain ⟨hname, hnames⟩ := List.forall_mem_cons.mp hnames
      by_cases hnil : names = []
      · subst hnil
        rw [joined_singleton, splitSlashes_of_not_mem hname]
      · rw [joined_cons name hnil, splitSlashes_append hname, ih hnil hnames]

end KeyOrder
