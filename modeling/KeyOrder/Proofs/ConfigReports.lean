import KeyOrder.Proofs.FormChecks
/-!
# What is reported about configurations

A value is read as a configuration exactly if it has the form of configurations: then the
configuration carries what the value gives and defaults for what it leaves out.  Otherwise
the issues stand at exactly the offending locations, under the name of the source.
-/

namespace KeyOrder

/-! ## What rules and configurations give -/

/-- A scalar that is no text with unpaired halves. -/
def Value.IsPlainScalar : Value → Prop
  | .str s => s.isPlain = true
  | _ => True

/-- A value without unpaired halves in its texts and keys. -/
def Value.IsPlain (v : Value) : Prop :=
  v.IsTree IsPlainScalar

/-- The keys of a mapping without unpaired halves are texts of characters. -/
theorem keysArePlain_stringMembers {members : List (CodeText × Value)}
    (h : ∀ m ∈ members, Value.IsPlainScalar (.str m.1)) :
    keysArePlain (stringMembers members) = true := by
  rw [keysArePlain, stringMembers, List.all_map, List.all_eq_true]
  exact h

/-- What the members of a rule give: each setting as it is given, or what is set if it is left
out. -/
structure Rule.IsGiven (members : List (CodeText × Value)) (rule : Rule) : Prop where
  sortFrom : GivesField (fun v given => ∃ n, given = some n ∧ GivesDepth v n) none
    members "sortFrom" rule.sortFrom
  ignored : GivesField GivesFlag false members "ignore" rule.ignored
  sortOrder : GivesField (fun v given => ∃ texts, given = some texts ∧ GivesTexts v texts) none
    members "sortOrder" rule.sortOrder

/-- A value gives a rule. -/
def GivesRule (v : Value) (rule : Rule) : Prop :=
  ∃ members, v = .map (stringMembers members) ∧ rule.IsGiven members

/-- A value gives rules with their patterns, in the order of its members. -/
def GivesRules (v : Value) (files : List (CodeText × Rule)) : Prop :=
  ∃ members, v = .map (stringMembers members) ∧
    List.Forall₂ (fun m entry => m.1 = entry.1 ∧ GivesRule m.2 entry.2) members files

/-- What the members of a configuration give: each setting as it is given, or the default if it is
left out. -/
structure Config.IsGiven (members : List (CodeText × Value)) (config : Config) : Prop where
  schemaUrl : GivesField (fun v given => ∃ s, given = some s ∧ GivesText v s) none
    members "$schema" config.schemaUrl
  included : GivesField GivesTexts [codeText "**/*.json"] members "include" config.included
  ignored : GivesField GivesTexts [] members "ignore" config.ignored
  sortFrom : GivesField GivesDepth 1 members "sortFrom" config.sortFrom
  files : GivesField GivesRules [] members "files" config.files

/-! ## Checks of rules and configurations -/

/-- Rules are checked. -/
theorem checks_rule (location : List CodeText) {v : Value} (hv : v.IsPlain) :
    Checks ruleForm GivesRule checkRule location v := by
  cases hv with
  | scalar hscalar _ => cases v <;> first | exact checks_bad id rfl | exact hscalar.elim
  | list _ => exact checks_bad id rfl
  | @map members hkeys hplain h =>
      have hsortFrom := fun v (_ : (codeText "sortFrom", v) ∈ members) =>
        (checks_depth (location ++ [codeText "sortFrom"]) v).given id
      have hignored := fun v (_ : (codeText "ignore", v) ∈ members) =>
        checks_flag (location ++ [codeText "ignore"]) v
      have hsortOrder := fun v (_ : (codeText "sortOrder", v) ∈ members) =>
        (checks_texts (location ++ [codeText "sortOrder"]) v).given id
      have hcheck : checkRule location (.map (stringMembers members)) = _ :=
        if_neg (by rw [keysArePlain_stringMembers hplain]; exact Bool.false_ne_true)
      refine ⟨?_, fun hissues => ?_⟩
      · rw [hcheck]
        refine ((((locatedAt_checkField hkeys hsortFrom).append
          (locatedAt_checkField hkeys hignored)).append
          (locatedAt_checkField hkeys hsortOrder)).append
          (locatedAt_unknownKeys _)).congr fun rest => ?_
        rw [ruleForm, Form.offends_record_iff]
        simp only [List.mem_cons, List.not_mem_nil, exists_eq_or_imp, exists_eq_left, or_false,
          List.map_cons, List.map_nil, or_assoc]
      · rw [hcheck] at hissues ⊢
        simp only [List.append_eq_nil_iff] at hissues
        obtain ⟨⟨⟨hfrom, hflag⟩, horder⟩, -⟩ := hissues
        exact ⟨members, rfl, givesField_of_checkField hkeys hsortFrom hfrom,
          givesField_of_checkField hkeys hignored hflag,
          givesField_of_checkField hkeys hsortOrder horder⟩

/-- Mappings from patterns to rules are checked. -/
theorem checks_rules (location : List CodeText) {v : Value} (hv : v.IsPlain) :
    Checks (.table ruleForm) GivesRules checkRules location v := by
  cases hv with
  | scalar hscalar _ => cases v <;> first | exact checks_bad id rfl | exact hscalar.elim
  | list _ => exact checks_bad id rfl
  | @map members hkeys hplain h =>
      have hcheck : checkRules location (.map (stringMembers members))
          = checkItems (fun _ member => checkRuleMember location member) 0
              (stringMembers members) := rfl
      have hmember : ∀ m ∈ stringMembers members, ∃ m' ∈ members, m = (.str m'.1, m'.2) := by
        intro m hm
        obtain ⟨m', hm', rfl⟩ := List.mem_map.mp hm
        exact ⟨m', hm', rfl⟩
      refine ⟨?_, fun hissues => ?_⟩
      · rw [hcheck]
        refine (locatedAt_checkItems (P := fun _ (m : Key × Value) rest =>
          ∃ inner, ruleForm.Offends m.2 inner ∧ rest = m.1.name :: inner)
          (fun position m hm => ?_) 0).congr fun rest => ?_
        · obtain ⟨m', hm', rfl⟩ := hmember m hm
          exact (checks_rule (location ++ [m'.1]) (h m' hm')).located.under
        · rw [Form.offends_table_iff]
          constructor
          · rintro ⟨position, m, hm, inner, hinner, rfl⟩
            obtain ⟨m', hm', rfl⟩ := hmember m (List.mem_of_getElem? hm)
            exact ⟨m', hm', inner, hinner, rfl⟩
          · rintro ⟨m, hm, inner, hinner, rfl⟩
            obtain ⟨position, hposition⟩ := List.getElem?_of_mem
              (List.mem_map_of_mem (f := fun m : CodeText × Value => (Key.str m.1, m.2)) hm)
            exact ⟨position, _, hposition, inner, hinner, rfl⟩
      · rw [hcheck] at hissues ⊢
        refine ⟨members, rfl, ?_⟩
        have hitems : List.Forall₂ (fun (m : Key × Value) (entry : CodeText × Rule) =>
            m.1.name = entry.1 ∧ GivesRule m.2 entry.2) (stringMembers members)
            (checkItems (fun _ member => checkRuleMember location member) 0
              (stringMembers members)).value := by
          refine forall₂_of_checkItems (fun position m hm hnone => ?_) 0 hissues
          obtain ⟨m', hm', rfl⟩ := hmember m hm
          exact ⟨rfl, (checks_rule (location ++ [m'.1]) (h m' hm')).gives_value hnone⟩
        exact List.forall₂_map_left_iff.mp hitems

/-- Configurations are checked. -/
theorem checks_config {v : Value} (hv : v.IsPlain) :
    Checks configForm (fun v config => ∃ members, v = .map (stringMembers members) ∧
      config.IsGiven members) (fun _ => checkConfig) [] v := by
  cases hv with
  | scalar hscalar _ => cases v <;> first | exact checks_bad id rfl | exact hscalar.elim
  | list _ => exact checks_bad id rfl
  | @map members hkeys hplain h =>
      have hschemaUrl := fun v (_ : (codeText "$schema", v) ∈ members) =>
        (checks_text ([] ++ [codeText "$schema"]) v).given id
      have hincluded := fun v (_ : (codeText "include", v) ∈ members) =>
        checks_texts ([] ++ [codeText "include"]) v
      have hignored := fun v (_ : (codeText "ignore", v) ∈ members) =>
        checks_texts ([] ++ [codeText "ignore"]) v
      have hsortFrom := fun v (_ : (codeText "sortFrom", v) ∈ members) =>
        checks_depth ([] ++ [codeText "sortFrom"]) v
      have hfiles := fun v (hv : (codeText "files", v) ∈ members) =>
        checks_rules ([] ++ [codeText "files"]) (h _ hv)
      have hcheck : checkConfig (.map (stringMembers members)) = _ :=
        if_neg (by rw [keysArePlain_stringMembers hplain]; exact Bool.false_ne_true)
      refine ⟨?_, fun hissues => ?_⟩
      · rw [hcheck]
        refine ((((((locatedAt_checkField hkeys hschemaUrl).append
          (locatedAt_checkField hkeys hincluded)).append
          (locatedAt_checkField hkeys hignored)).append
          (locatedAt_checkField hkeys hsortFrom)).append
          (locatedAt_checkField hkeys hfiles)).append
          (locatedAt_unknownKeys _)).congr fun rest => ?_
        rw [configForm, Form.offends_record_iff]
        simp only [List.mem_cons, List.not_mem_nil, exists_eq_or_imp, exists_eq_left, or_false,
          List.map_cons, List.map_nil, or_assoc]
      · rw [hcheck] at hissues ⊢
        simp only [List.append_eq_nil_iff] at hissues
        obtain ⟨⟨⟨⟨⟨hurl, hinclude⟩, hignore⟩, hfrom⟩, hrules⟩, -⟩ := hissues
        exact ⟨members, rfl, givesField_of_checkField hkeys hschemaUrl hurl,
          givesField_of_checkField hkeys hincluded hinclude,
          givesField_of_checkField hkeys hignored hignore,
          givesField_of_checkField hkeys hsortFrom hfrom,
          givesField_of_checkField hkeys hfiles hrules⟩

/-! ## Reports -/

/-- A configuration is read exactly if the value has the form of configurations; then it is what
the members give.  Otherwise there are issues, under the name of the source, and they stand at
exactly the offending locations. -/
theorem ofValue_reports (source : CodeText) {v : Value} (hv : v.IsPlain) :
    ((∃ config, Config.ofValue source v = .ok config) ↔ configForm.Fits v) ∧
      (∀ config, Config.ofValue source v = .ok config →
        ∃ members, v = .map (stringMembers members) ∧ config.IsGiven members) ∧
      (¬ configForm.Fits v → ∃ issues,
        Config.ofValue source v = .error ⟨source, issues⟩ ∧ issues ≠ [] ∧
          (∀ location, location ∈ issues.map Issue.location ↔ configForm.Offends v location) ∧
          ∀ path, path ∈ issues.map Issue.path ↔
            ∃ location, configForm.Offends v location ∧
              path = [.scalar '/'].intercalate location) := by
  obtain ⟨hlocated, hgives⟩ := checks_config hv
  have hlocation : ∀ location, location ∈ (checkConfig v).issues.map Issue.location ↔
      configForm.Offends v location := fun location => by
    rw [hlocated location]
    simp only [List.nil_append, exists_eq_right']
  have hfits : configForm.Fits v ↔ (checkConfig v).issues = [] := by
    rw [Form.fits_iff (hv.mono fun _ _ => trivial)]
    simp only [← hlocation, ← List.eq_nil_iff_forall_not_mem, List.map_eq_nil_iff]
  by_cases hissues : (checkConfig v).issues = []
  · have hok : Config.ofValue source v = .ok (checkConfig v).value :=
      if_pos (List.isEmpty_iff.mpr hissues)
    refine ⟨iff_of_true ⟨_, hok⟩ (hfits.mpr hissues), fun config h => ?_,
      fun h => absurd (hfits.mpr hissues) h⟩
    rw [hok] at h
    exact Except.ok.inj h ▸ hgives hissues
  · have herror : Config.ofValue source v = .error ⟨source, (checkConfig v).issues⟩ :=
      if_neg (mt List.isEmpty_iff.mp hissues)
    refine ⟨iff_of_false ?_ (mt hfits.mp hissues), ?_, fun _ =>
      ⟨_, herror, hissues, hlocation, fun path => ?_⟩⟩
    · rintro ⟨config, h⟩
      rw [herror] at h
      cases h
    · intro config h
      rw [herror] at h
      cases h
    · simp only [← hlocation, List.mem_map]
      constructor
      · rintro ⟨issue, hissue, rfl⟩
        exact ⟨issue.location, ⟨issue, hissue, rfl⟩, rfl⟩
      · rintro ⟨_, ⟨issue, hissue, rfl⟩, rfl⟩
        exact ⟨issue, hissue, rfl⟩

/-- A configuration with a number among the keys that a rule sorts and with null for a rule. -/
def misplacedConfig : Value :=
  .map (stringMembers [(codeText "sortFrom", .int 2), (codeText "files", .map (stringMembers
    [(codeText "a.json", .map (stringMembers
      [(codeText "sortOrder", .list [.str (codeText "x"), .int 1])])),
      (codeText "b.json", .null)]))])

/-- The number and the null are issues of the configuration. -/
theorem ofValue_misplacedConfig :
    misplacedConfig.IsPlain ∧ ¬ configForm.Fits misplacedConfig ∧ ∃ issues,
      Config.ofValue (codeText "test") misplacedConfig = .error ⟨codeText "test", issues⟩ ∧
        codeText "files/a.json/sortOrder/1" ∈ issues.map Issue.path ∧
        codeText "files/b.json" ∈ issues.map Issue.path := by
  have hplain : misplacedConfig.IsPlain := by
    have hrule : (Value.map (stringMembers
        [(codeText "sortOrder", .list [.str (codeText "x"), .int 1])])).IsPlain := by
      refine .map (by decide) ?_ ?_ <;> simp only [List.forall_mem_singleton]
      · rfl
      · refine .list ?_
        simp only [List.forall_mem_cons]
        exact ⟨.scalar trivial rfl, .scalar trivial trivial, List.forall_mem_nil _⟩
    have hfiles : (Value.map (stringMembers [(codeText "a.json", .map (stringMembers
        [(codeText "sortOrder", .list [.str (codeText "x"), .int 1])])),
          (codeText "b.json", .null)])).IsPlain := by
      refine .map (by decide) ?_ ?_ <;> simp only [List.forall_mem_cons]
      · exact ⟨rfl, rfl, List.forall_mem_nil _⟩
      · exact ⟨hrule, .scalar trivial trivial, List.forall_mem_nil _⟩
    refine .map (by decide) ?_ ?_ <;> simp only [List.forall_mem_cons]
    · exact ⟨rfl, rfl, List.forall_mem_nil _⟩
    · exact ⟨.scalar trivial trivial, hfiles, List.forall_mem_nil _⟩
  have hfilesField : ("files", Form.table ruleForm) ∈ [("$schema", Form.text),
      ("include", .listOf .text), ("ignore", .listOf .text), ("sortFrom", .depth),
      ("files", .table ruleForm)] := by simp
  have hsortOrderField : ("sortOrder", Form.listOf .text) ∈
      [("sortFrom", Form.depth), ("ignore", .flag), ("sortOrder", .listOf .text)] := by simp
  have hnumber : configForm.Offends misplacedConfig
      [codeText "files", codeText "a.json", codeText "sortOrder", positionName 1] := by
    have hitem : (Form.listOf .text).Offends (.list [.str (codeText "x"), .int 1])
        [positionName 1] := .item rfl (.kind id)
    have hentry : ruleForm.Offends (.map (stringMembers
        [(codeText "sortOrder", .list [.str (codeText "x"), .int 1])]))
        [codeText "sortOrder", positionName 1] :=
      .field hsortOrderField (List.mem_cons_self ..) hitem
    exact .field hfilesField (List.mem_cons_of_mem _ (List.mem_cons_self ..))
      (.entry (List.mem_cons_self ..) hentry)
  have hrule : configForm.Offends misplacedConfig [codeText "files", codeText "b.json"] :=
    .field hfilesField (List.mem_cons_of_mem _ (List.mem_cons_self ..))
      (.entry (List.mem_cons_of_mem _ (List.mem_cons_self ..)) (.kind id))
  have hfits : ¬ configForm.Fits misplacedConfig := fun h => h.not_offends _ hrule
  obtain ⟨issues, herror, -, -, hpaths⟩ := (ofValue_reports (codeText "test") hplain).2.2 hfits
  exact ⟨hplain, hfits, issues, herror, (hpaths _).mpr ⟨_, hnumber, rfl⟩,
    (hpaths _).mpr ⟨_, hrule, rfl⟩⟩

end KeyOrder
