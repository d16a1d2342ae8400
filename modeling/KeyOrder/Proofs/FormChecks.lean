import KeyOrder.Proofs.ConfigForm
/-!
# Checks of forms

A check reads values of a form: its issues stand at exactly the locations that offend, and
without issues it reads what the value gives.  The checks of single values, of rows and of
the fields of mappings do so, and hence the checks that are put together from them.
-/

namespace KeyOrder

/-! ## Locations of issues -/

section Located

variable {issues issues' : List Issue} {location : List CodeText} {P Q : List CodeText → Prop}

/-- The issues stand at exactly some locations, which are counted from a given one on. -/
def LocatedAt (location : List CodeText) (P : List CodeText → Prop) (issues : List Issue) : Prop :=
  ∀ place, place ∈ issues.map Issue.location ↔ ∃ rest, P rest ∧ place = location ++ rest

/-- No issues stand nowhere. -/
theorem locatedAt_nil (h : ∀ rest, ¬ P rest) : LocatedAt location P [] :=
  fun _ => iff_of_false (List.not_mem_nil) fun ⟨rest, hrest, _⟩ => h rest hrest

/-- One issue at the location itself. -/
theorem locatedAt_singleton {problem : Problem} (h : ∀ rest, P rest ↔ rest = []) :
    LocatedAt location P [⟨location, problem⟩] := by
  intro place
  simp only [List.map_cons, List.map_nil, List.mem_singleton, h, exists_eq_left, List.append_nil]

/-- Issues in a row stand where those of one or the other part do. -/
theorem LocatedAt.append (h : LocatedAt location P issues) (h' : LocatedAt location Q issues') :
    LocatedAt location (fun rest => P rest ∨ Q rest) (issues ++ issues') := by
  intro place
  rw [List.map_append, List.mem_append, h place, h' place, ← exists_or]
  exact exists_congr fun rest => or_and_right.symm

/-- Issues under a name stand where they stand from the location of the name on. -/
theorem LocatedAt.under {name : CodeText} (h : LocatedAt (location ++ [name]) P issues) :
    LocatedAt location (fun rest => ∃ inner, P inner ∧ rest = name :: inner) issues := by
  intro place
  rw [h place]
  constructor
  · rintro ⟨inner, hinner, rfl⟩
    exact ⟨_, ⟨inner, hinner, rfl⟩, by simp⟩
  · rintro ⟨_, ⟨inner, hinner, rfl⟩, rfl⟩
    exact ⟨inner, hinner, by simp⟩

/-- Issues stand at like locations. -/
theorem LocatedAt.congr (h : LocatedAt location P issues) (hPQ : ∀ rest, P rest ↔ Q rest) :
    LocatedAt location Q issues := by
  intro place
  simp only [h place, hPQ]

end Located

/-! ## Checks of single values -/

/-- A check reads values of a form: its issues stand at the offending locations, and without issues
it reads what the value gives. -/
structure Checks {α : Type} (form : Form) (gives : Value → α → Prop)
    (check : List CodeText → Value → Checked α) (location : List CodeText) (v : Value) : Prop where
  located : LocatedAt location (form.Offends v) (check location v).issues
  gives_value : (check location v).issues = [] → gives v (check location v).value

section Single

variable {α : Type} {form : Form} {gives : Value → α → Prop}
  {check : List CodeText → Value → Checked α} {location : List CodeText} {v : Value}

/-- A check that refuses a value of another kind. -/
theorem checks_bad {value : α} {problem : Problem} (hkind : ¬ form.Takes v)
    (hcheck : check location v = .bad value location problem) :
    Checks form gives check location v where
  located := by
    rw [hcheck]
    exact locatedAt_singleton fun rest => Form.offends_iff_of_not_takes hkind
  gives_value h := by
    rw [hcheck] at h
    cases h

/-- A check that accepts a value. -/
theorem checks_ok {value : α} (hfree : ∀ rest, ¬ form.Offends v rest)
    (hcheck : check location v = .ok value) (hgives : gives v value) :
    Checks form gives check location v where
  located := by
    rw [hcheck]
    exact locatedAt_nil hfree
  gives_value _ := by
    rw [hcheck]
    exact hgives

end Single

/-- A value gives a depth. -/
def GivesDepth (v : Value) (n : Nat) : Prop :=
  v = .int n

/-- A value gives a text. -/
def GivesText (v : Value) (s : CodeText) : Prop :=
  v = .str s

/-- A value gives a truth value. -/
def GivesFlag (v : Value) (b : Bool) : Prop :=
  v = .bool b

/-- A value gives a list of texts. -/
def GivesTexts (v : Value) (texts : List CodeText) : Prop :=
  v = .list (texts.map Value.str)

/-- Depths are checked. -/
theorem checks_depth (location : List CodeText) (v : Value) :
    Checks .depth GivesDepth checkDepth location v := by
  cases v with
  | int n =>
      by_cases hn : n < 0
      · exact checks_bad (Int.not_le.mpr hn) (if_pos hn)
      · obtain ⟨m, rfl⟩ := Int.eq_ofNat_of_zero_le (Int.not_lt.mp hn)
        have hcheck : checkDepth location (.int m) = .ok m := by
          rw [checkDepth, if_neg hn, Int.toNat_natCast]
        exact checks_ok (fun _ => Form.not_offends_depth (Int.natCast_nonneg m)) hcheck rfl
  | _ => exact checks_bad id rfl

/-- Texts are checked. -/
theorem checks_text (location : List CodeText) (v : Value) :
    Checks .text GivesText checkText location v := by
  cases v with
  | str s => exact checks_ok (fun _ => Form.not_offends_text s) rfl rfl
  | _ => exact checks_bad id rfl

/-- Truth values are checked. -/
theorem checks_flag (location : List CodeText) (v : Value) :
    Checks .flag GivesFlag checkBool location v := by
  cases v with
  | bool b => exact checks_ok (fun _ => Form.not_offends_flag b) rfl rfl
  | _ => exact checks_bad id rfl

/-- Where null is refused, what is given is checked like any other value. -/
theorem Checks.given {α : Type} {form : Form} {gives : Value → α → Prop}
    {check : List CodeText → Value → Checked α} {location : List CodeText} {v : Value}
    (hnull : ¬ form.Takes .null) (h : Checks form gives check location v) :
    Checks form (fun v given => ∃ value, given = some value ∧ gives v value) (checkGiven check)
      location v := by
  by_cases hv : v = .null
  · subst hv
    exact checks_bad hnull rfl
  · have hgiven : checkGiven check location v = (check location v).map some := by
      unfold checkGiven
      split
      · exact absurd rfl hv
      · rfl
    refine ⟨?_, fun hissues => ?_⟩
    · rw [hgiven]
      exact h.located
    · rw [hgiven] at hissues ⊢
      exact ⟨_, rfl, h.gives_value hissues⟩

/-! ## Checks of rows -/

section Rows

variable {α β : Type} {check : Nat → α → Checked β} {location : List CodeText}

/-- The issues of a row are those of its items. -/
theorem locatedAt_checkItems {P : Nat → α → List CodeText → Prop} {items : List α}
    (h : ∀ position, ∀ item ∈ items,
      LocatedAt location (P position item) (check position item).issues)
    (start : Nat) :
    LocatedAt location
      (fun rest => ∃ position item, items[position]? = some item ∧ P (start + position) item rest)
      (checkItems check start items).issues := by
  induction items generalizing start with
  | nil => exact locatedAt_nil fun rest ⟨position, item, hitem, _⟩ => by simp at hitem
  | cons first items ih =>
      obtain ⟨hfirst, hitems⟩ := forall_and.mp fun position => List.forall_mem_cons.mp (h position)
      refine ((hfirst start).append (ih hitems (start + 1))).congr fun rest => ?_
      constructor
      · rintro (hrest | ⟨position, item, hitem, hrest⟩)
        · exact ⟨0, first, rfl, hrest⟩
        · refine ⟨position + 1, item, hitem, ?_⟩
          rwa [Nat.add_right_comm] at hrest
      · rintro ⟨position, item, hitem, hrest⟩
        cases position with
        | zero =>
            obtain rfl := Option.some.inj hitem
            exact Or.inl hrest
        | succ position =>
            refine Or.inr ⟨position, item, hitem, ?_⟩
            rwa [Nat.add_right_comm]

/-- Without issues a row reads what each of its items gives. -/
theorem forall₂_of_checkItems {gives : α → β → Prop} {items : List α}
    (h : ∀ position, ∀ item ∈ items, (check position item).issues = [] →
      gives item (check position item).value)
    (start : Nat) (hissues : (checkItems check start items).issues = []) :
    List.Forall₂ gives items (checkItems check start items).value := by
  induction items generalizing start with
  | nil => exact .nil
  | cons first items ih =>
      obtain ⟨hfirst, hitems⟩ := forall_and.mp fun position => List.forall_mem_cons.mp (h position)
      obtain ⟨hnone, hothers⟩ := List.append_eq_nil_iff.mp hissues
      exact .cons (hfirst start hnone) (ih hitems (start + 1) hothers)

end Rows

/-- Lists of texts are checked. -/
theorem checks_texts (location : List CodeText) (v : Value) :
    Checks (.listOf .text) GivesTexts checkTexts location v := by
  cases v with
  | list items =>
      refine ⟨?_, fun hissues => ?_⟩
      · refine (locatedAt_checkItems (fun position item _ =>
          (checks_text (itemLocation location position) item).located.under) 0).congr fun rest => ?_
        rw [Form.offends_listOf_iff]
        simp only [Nat.zero_add]
        constructor
        · rintro ⟨position, item, hitem, inner, hinner, rfl⟩
          exact ⟨position, item, inner, hitem, hinner, rfl⟩
        · rintro ⟨position, item, inner, hitem, hinner, rfl⟩
          exact ⟨position, item, hitem, inner, hinner, rfl⟩
      · have hitems := forall₂_of_checkItems (fun position item _ =>
          (checks_text (itemLocation location position) item).gives_value) 0 hissues
        refine congrArg Value.list ?_
        rw [← List.forall₂_eq_eq_eq]
        exact List.forall₂_map_right_iff.mpr hitems
  | _ => exact checks_bad id rfl

/-! ## Checks of mappings -/

section Fields

variable {α : Type} {form : Form} {gives : Value → α → Prop} {default value : α}
  {check : List CodeText → Value → Checked α} {location : List CodeText}
  {members : List (CodeText × Value)} {key : String}

/-- The members give a field: the value of its key does, or the key is left out and the field is
the default. -/
def GivesField (gives : Value → α → Prop) (default : α) (members : List (CodeText × Value))
    (key : String) (value : α) : Prop :=
  (∃ v, (codeText key, v) ∈ members ∧ gives v value) ∨
    (∀ m ∈ members, m.1 ≠ codeText key) ∧ value = default

/-- The value of a key that is left out is none. -/
theorem memberAt?_of_forall_ne (h : ∀ m ∈ members, m.1 ≠ codeText key) :
    memberAt? (stringMembers members) key = none := by
  rw [memberAt?, Option.map_eq_none_iff, List.find?_eq_none, stringMembers, List.forall_mem_map]
  intro m hm
  rw [beq_iff_eq]
  exact h m hm

/-- The value of a key that is there once is its own. -/
theorem memberAt?_of_mem (hkeys : (members.map Prod.fst).Nodup) {v : Value}
    (hv : (codeText key, v) ∈ members) : memberAt? (stringMembers members) key = some v := by
  induction members with
  | nil => cases hv
  | cons m members ih =>
      rw [List.map_cons, List.nodup_cons] at hkeys
      rw [stringMembers_cons, memberAt?, List.find?_cons]
      rcases List.mem_cons.mp hv with rfl | hv
      · have hname : ((Key.str (codeText key)).name == codeText key) = true := beq_self_eq_true _
        rw [hname]
        rfl
      · have hne : m.1 ≠ codeText key := fun heq =>
          hkeys.1 (heq ▸ List.mem_map_of_mem hv)
        have hname : ((Key.str m.1).name == codeText key) = false := beq_eq_false_iff_ne.mpr hne
        rw [hname]
        exact ih hkeys.2 hv

/-- A key is there or left out. -/
theorem mem_or_forall_ne (members : List (CodeText × Value)) (key : String) :
    (∃ v, (codeText key, v) ∈ members) ∨ ∀ m ∈ members, m.1 ≠ codeText key := by
  by_cases h : ∃ v, (codeText key, v) ∈ members
  · exact Or.inl h
  · exact Or.inr fun m hm heq => h ⟨m.2, heq ▸ hm⟩

/-- The issues of a field are those of the value of its key. -/
theorem locatedAt_checkField (hkeys : (members.map Prod.fst).Nodup)
    (h : ∀ v, (codeText key, v) ∈ members →
      Checks form gives check (location ++ [codeText key]) v) :
    LocatedAt location (OffendsField members (key, form))
      (checkField check default location (stringMembers members) key).issues := by
  unfold checkField
  rcases mem_or_forall_ne members key with ⟨v, hv⟩ | hnone
  · rw [memberAt?_of_mem hkeys hv]
    refine (h v hv).located.under.congr fun rest => ?_
    constructor
    · rintro ⟨inner, hinner, rfl⟩
      exact ⟨v, inner, hv, hinner, rfl⟩
    · rintro ⟨v', inner, hv', hinner, rfl⟩
      have heq := (memberAt?_of_mem hkeys hv).symm.trans (memberAt?_of_mem hkeys hv')
      obtain rfl := Option.some.inj heq
      exact ⟨inner, hinner, rfl⟩
  · rw [memberAt?_of_forall_ne hnone]
    refine locatedAt_nil ?_
    rintro rest ⟨v, inner, hv, -, -⟩
    exact hnone _ hv rfl

/-- Without issues a field is read as the members give it. -/
theorem givesField_of_checkField (hkeys : (members.map Prod.fst).Nodup)
    (h : ∀ v, (codeText key, v) ∈ members →
      Checks form gives check (location ++ [codeText key]) v)
    (hissues : (checkField check default location (stringMembers members) key).issues = []) :
    GivesField gives default members key
      (checkField check default location (stringMembers members) key).value := by
  unfold checkField at hissues ⊢
  rcases mem_or_forall_ne members key with ⟨v, hv⟩ | hnone
  · rw [memberAt?_of_mem hkeys hv] at hissues ⊢
    exact Or.inl ⟨v, hv, (h v hv).gives_value hissues⟩
  · rw [memberAt?_of_forall_ne hnone]
    exact Or.inr ⟨hnone, rfl⟩

/-- The issues of unknown keys are at these. -/
theorem locatedAt_unknownKeys (known : List String) :
    LocatedAt location (OffendsUnknown members known)
      (unknownKeys known location (stringMembers members)) := by
  intro place
  have hknown : ∀ m : CodeText × Value,
      (known.any fun key => m.1 == codeText key) = false ↔ ∀ key ∈ known, m.1 ≠ codeText key := by
    intro m
    rw [List.any_eq_false]
    simp only [beq_iff_eq]
  unfold unknownKeys stringMembers OffendsUnknown
  simp only [List.filterMap_map, List.mem_map, List.mem_filterMap, Function.comp_apply]
  constructor
  · rintro ⟨issue, ⟨m, hm, hissue⟩, rfl⟩
    split at hissue
    · cases hissue
    · next hunknown =>
      obtain rfl := Option.some.inj hissue
      exact ⟨_, ⟨m, hm, (hknown m).mp (Bool.not_eq_true _ ▸ hunknown), rfl⟩, rfl⟩
  · rintro ⟨_, ⟨m, hm, hunknown, rfl⟩, rfl⟩
    refine ⟨⟨location ++ [m.1], .unknownKey⟩, ⟨m, hm, ?_⟩, rfl⟩
    exact if_neg (Bool.eq_false_iff.mp ((hknown m).mpr hunknown))

end Fields

end KeyOrder
