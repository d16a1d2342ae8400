import KeyOrder.Config.Check
import KeyOrder.Proofs.Shape
/-!
# The form of configurations

A configuration has a form: a record of known keys, each of which may be left out, with a
form for the value of each.  A value offends at each location where it is of another kind
than its form asks for and at each key that its form does not know, and it has the form
exactly if it offends nowhere.
-/

namespace KeyOrder

/-! ## Forms -/

/-- What a value has to be. -/
inductive Form where
  /-- A text. -/
  | text
  /-- An integer that is not negative. -/
  | depth
  /-- A truth value. -/
  | flag
  /-- A list of values of a form. -/
  | listOf (item : Form)
  /-- A mapping from any keys to values of a form. -/
  | table (entry : Form)
  /-- A mapping with some of the given keys, each with its form. -/
  | record (fields : List (String × Form))

/-- The form of rules. -/
def ruleForm : Form :=
  .record [("sortFrom", .depth), ("ignore", .flag), ("sortOrder", .listOf .text)]

/-- The form of configurations. -/
def configForm : Form :=
  .record [("$schema", .text), ("include", .listOf .text), ("ignore", .listOf .text),
    ("sortFrom", .depth), ("files", .table ruleForm)]

/-- A value has a form. -/
inductive Form.Fits : Form → Value → Prop
  | text (s : CodeText) : Fits .text (.str s)
  | depth (n : Nat) : Fits .depth (.int n)
  | flag (b : Bool) : Fits .flag (.bool b)
  | listOf {form : Form} {items : List Value} (h : ∀ v ∈ items, Fits form v) :
      Fits (.listOf form) (.list items)
  | table {form : Form} {members : List (CodeText × Value)} (h : ∀ m ∈ members, Fits form m.2) :
      Fits (.table form) (.map (stringMembers members))
  | record {fields : List (String × Form)} {members : List (CodeText × Value)}
      (hknown : ∀ m ∈ members, ∃ field ∈ fields, m.1 = codeText field.1)
      (h : ∀ m ∈ members, ∀ field ∈ fields, m.1 = codeText field.1 → Fits field.2 m.2) :
      Fits (.record fields) (.map (stringMembers members))

/-- A value is of the kind that a form asks for, whatever it holds. -/
def Form.Takes : Form → Value → Prop
  | .text, .str _ => True
  | .depth, .int n => 0 ≤ n
  | .flag, .bool _ => True
  | .listOf _, .list _ => True
  | .table _, .map _ => True
  | .record _, .map _ => True
  | _, _ => False

/-- The position of an item as a part of a location. -/
def positionName (position : Nat) : CodeText :=
  CodeText.ofText (digitsOfNat position)

/-- A location at which a value does not have a form: the value is of another kind, or what it
holds under a key or at a position offends, or a key is not known. -/
inductive Form.Offends : Form → Value → List CodeText → Prop
  | kind {form : Form} {v : Value} (h : ¬ form.Takes v) : Offends form v []
  | item {form : Form} {items : List Value} {position : Nat} {v : Value} {rest : List CodeText}
      (hitem : items[position]? = some v) (h : Offends form v rest) :
      Offends (.listOf form) (.list items) (positionName position :: rest)
  | entry {form : Form} {members : List (CodeText × Value)} {m : CodeText × Value}
      {rest : List CodeText} (hm : m ∈ members) (h : Offends form m.2 rest) :
      Offends (.table form) (.map (stringMembers members)) (m.1 :: rest)
  | field {fields : List (String × Form)} {field : String × Form}
      {members : List (CodeText × Value)} {v : Value} {rest : List CodeText}
      (hfield : field ∈ fields) (hm : (codeText field.1, v) ∈ members)
      (h : Offends field.2 v rest) :
      Offends (.record fields) (.map (stringMembers members)) (codeText field.1 :: rest)
  | unknown {fields : List (String × Form)} {members : List (CodeText × Value)}
      {m : CodeText × Value} (hm : m ∈ members)
      (hunknown : ∀ field ∈ fields, m.1 ≠ codeText field.1) :
      Offends (.record fields) (.map (stringMembers members)) [m.1]

/-- What offends under a field is what the value of its key offends. -/
def OffendsField (members : List (CodeText × Value)) (field : String × Form)
    (location : List CodeText) : Prop :=
  ∃ v rest, (codeText field.1, v) ∈ members ∧ field.2.Offends v rest ∧
    location = codeText field.1 :: rest

/-- The keys that no field has offend. -/
def OffendsUnknown (members : List (CodeText × Value)) (names : List String)
    (location : List CodeText) : Prop :=
  ∃ m ∈ members, (∀ name ∈ names, m.1 ≠ codeText name) ∧ location = [m.1]

/-! ## Offending locations -/

section Offends

variable {form : Form} {v : Value} {location : List CodeText} {items : List Value}
  {members : List (CodeText × Value)} {fields : List (String × Form)}

/-- A value of another kind offends only as a whole. -/
theorem Form.offends_iff_of_not_takes (h : ¬ form.Takes v) :
    form.Offends v location ↔ location = [] := by
  constructor
  · intro hoffends
    cases hoffends with
    | kind _ => rfl
    | _ => exact absurd trivial h
  · rintro rfl
    exact .kind h

/-- A text of any kind offends nowhere. -/
theorem Form.not_offends_text (s : CodeText) : ¬ Form.text.Offends (.str s) location := by
  intro h
  cases h with
  | kind h => exact h trivial

/-- A truth value offends nowhere. -/
theorem Form.not_offends_flag (b : Bool) : ¬ Form.flag.Offends (.bool b) location := by
  intro h
  cases h with
  | kind h => exact h trivial

/-- An integer that is not negative offends nowhere. -/
theorem Form.not_offends_depth {n : Int} (hn : 0 ≤ n) : ¬ Form.depth.Offends (.int n) location := by
  intro h
  cases h with
  | kind h => exact h hn

/-- A list offends where its items do. -/
theorem Form.offends_listOf_iff :
    (Form.listOf form).Offends (.list items) location ↔
      ∃ position item rest, items[position]? = some item ∧ form.Offends item rest ∧
        location = positionName position :: rest := by
  constructor
  · intro h
    cases h with
    | kind h => exact absurd trivial h
    | item hitem h => exact ⟨_, _, _, hitem, h, rfl⟩
  · rintro ⟨position, item, rest, hitem, h, rfl⟩
    exact .item hitem h

/-- A table offends where its values do. -/
theorem Form.offends_table_iff :
    (Form.table form).Offends (.map (stringMembers members)) location ↔
      ∃ m ∈ members, ∃ rest, form.Offends m.2 rest ∧ location = m.1 :: rest := by
  constructor
  · intro h
    generalize hv : Value.map (stringMembers members) = v at h
    cases h with
    | kind h =>
        subst hv
        exact absurd trivial h
    | entry hm h =>
        obtain rfl := stringMembers_injective (Value.map.inj hv)
        exact ⟨_, hm, _, h, rfl⟩
  · rintro ⟨m, hm, rest, h, rfl⟩
    exact .entry hm h

/-- A record offends where its fields do and at its unknown keys. -/
theorem Form.offends_record_iff :
    (Form.record fields).Offends (.map (stringMembers members)) location ↔
      (∃ field ∈ fields, OffendsField members field location) ∨
        OffendsUnknown members (fields.map Prod.fst) location := by
  constructor
  · intro h
    generalize hv : Value.map (stringMembers members) = v at h
    cases h with
    | kind h =>
        subst hv
        exact absurd trivial h
    | field hfield hm h =>
        obtain rfl := stringMembers_injective (Value.map.inj hv)
        exact Or.inl ⟨_, hfield, _, _, hm, h, rfl⟩
    | unknown hm hunknown =>
        obtain rfl := stringMembers_injective (Value.map.inj hv)
        exact Or.inr ⟨_, hm, List.forall_mem_map.mpr hunknown, rfl⟩
  · rintro (⟨field, hfield, v, rest, hm, h, rfl⟩ | ⟨m, hm, hunknown, rfl⟩)
    · exact .field hfield hm h
    · exact .unknown hm fun field hfield => hunknown _ (List.mem_map_of_mem hfield)

end Offends

/-- A value with the form offends nowhere. -/
theorem Form.Fits.not_offends {form : Form} {v : Value} (h : form.Fits v)
    (location : List CodeText) : ¬ form.Offends v location := by
  induction h generalizing location with
  | text s => exact not_offends_text s
  | depth n => exact not_offends_depth (Int.natCast_nonneg n)
  | flag b => exact not_offends_flag b
  | listOf _ ih =>
      rw [offends_listOf_iff]
      rintro ⟨position, item, rest, hitem, hoffends, -⟩
      exact ih item (List.mem_of_getElem? hitem) rest hoffends
  | table _ ih =>
      rw [offends_table_iff]
      rintro ⟨m, hm, rest, hoffends, -⟩
      exact ih m hm rest hoffends
  | record hknown _ ih =>
      rw [offends_record_iff]
      rintro (⟨field, hfield, v, rest, hm, hoffends, -⟩ | ⟨m, hm, hunknown, -⟩)
      · exact ih _ hm field hfield rfl rest hoffends
      · obtain ⟨field, hfield, heq⟩ := hknown m hm
        exact hunknown _ (List.mem_map_of_mem hfield) heq

/-- A value has a form exactly if it offends nowhere. -/
theorem Form.fits_iff {v : Value} (hv : v.IsJson) {form : Form} :
    form.Fits v ↔ ∀ location, ¬ form.Offends v location := by
  refine ⟨Fits.not_offends, fun h => ?_⟩
  have htakes : form.Takes v := not_not.mp fun hkind => h [] (.kind hkind)
  induction hv generalizing form with
  | @scalar v hscalar hgood =>
      cases form with
      | text => cases v <;> first | exact .text _ | exact htakes.elim
      | depth =>
          cases v with
          | int n =>
              obtain ⟨m, rfl⟩ := Int.eq_ofNat_of_zero_le htakes
              exact .depth m
          | _ => exact htakes.elim
      | flag => cases v <;> first | exact .flag _ | exact htakes.elim
      | _ => cases v <;> first | exact htakes.elim | exact hscalar.elim
  | list _ ih =>
      cases form with
      | listOf form =>
          refine .listOf fun v hv => ?_
          obtain ⟨position, hposition⟩ := List.getElem?_of_mem hv
          have hitem : ∀ location, ¬ form.Offends v location := fun location hoffends =>
            h _ (.item hposition hoffends)
          exact ih v hv hitem (not_not.mp fun hkind => hitem [] (.kind hkind))
      | _ => exact htakes.elim
  | map hkeys _ _ ih =>
      cases form with
      | table form =>
          refine .table fun m hm => ?_
          have hentry : ∀ location, ¬ form.Offends m.2 location := fun location hoffends =>
            h _ (.entry hm hoffends)
          exact ih m hm hentry (not_not.mp fun hkind => hentry [] (.kind hkind))
      | record fields =>
          refine .record (fun m hm => ?_) fun m hm field hfield heq => ?_
          · by_contra hunknown
            push Not at hunknown
            exact h _ (.unknown hm hunknown)
          · have hvalue : ∀ location, ¬ field.2.Offends m.2 location := fun location hoffends =>
              h _ (.field hfield (by rw [← heq]; exact hm) hoffends)
            exact ih m hm hvalue (not_not.mp fun hkind => hvalue [] (.kind hkind))
      | _ => exact htakes.elim

end KeyOrder
