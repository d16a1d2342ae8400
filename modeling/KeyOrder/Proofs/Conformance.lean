import KeyOrder.Proofs.ConfigReports
import KeyOrder.Proofs.Schemas
/-!
# Conformance to the schema of configurations

What conforms to the schema of configurations is read as a configuration if it holds no null
and writes its numbers without fractions and exponents, and what is read conforms to the
schema.
-/

namespace KeyOrder

/-! ## Strict values -/

/-- A scalar that is no number with a fraction or an exponent. -/
def Value.IsIntegral : Value → Prop
  | .float _ => False
  | _ => True

/-- A scalar that is not null. -/
def Value.IsGiven : Value → Prop
  | .null => False
  | _ => True

/-- A value without nulls and without numbers that have a fraction or an exponent. -/
def Value.IsStrict (v : Value) : Prop :=
  v.IsTree fun s => s.IsIntegral ∧ s.IsGiven

/-- The items of a tree are trees. -/
theorem Value.IsTree.items {good : Value → Prop} {items : List Value}
    (h : (Value.list items).IsTree good) : ∀ v ∈ items, v.IsTree good := by
  cases h with
  | scalar hscalar _ => exact hscalar.elim
  | list h => exact h

/-- The members of a tree have strings as keys and trees as values. -/
theorem Value.IsTree.exists_members {good : Value → Prop} {members : List (Key × Value)}
    (h : (Value.map members).IsTree good) :
    ∃ members', members = stringMembers members' ∧ ∀ m ∈ members', m.2.IsTree good := by
  cases h with
  | scalar hscalar _ => exact hscalar.elim
  | map _ _ h => exact ⟨_, rfl, h⟩

/-- What stands in a list stands next to something in a list that goes with it. -/
theorem exists_mem_of_forall₂ {α β : Type} {r : α → β → Prop} {xs : List α} {ys : List β}
    (h : List.Forall₂ r xs ys) {x : α} (hx : x ∈ xs) : ∃ y ∈ ys, r x y := by
  induction h with
  | nil => cases hx
  | cons hr _ ih =>
      rcases List.mem_cons.mp hx with rfl | hx
      · exact ⟨_, List.mem_cons_self, hr⟩
      · obtain ⟨y, hy, hr⟩ := ih hx
        exact ⟨y, List.mem_cons_of_mem _ hy, hr⟩

/-- What a value with a form holds has forms. -/
theorem Form.Fits.exists_fits {form : Form} {members : List (CodeText × Value)}
    (h : form.Fits (.map (stringMembers members))) {m : CodeText × Value} (hm : m ∈ members) :
    ∃ form' : Form, form'.Fits m.2 := by
  generalize hv : Value.map (stringMembers members) = v at h
  cases h with
  | table h =>
      obtain rfl := stringMembers_injective (Value.map.inj hv)
      exact ⟨_, h m hm⟩
  | record hknown h =>
      obtain rfl := stringMembers_injective (Value.map.inj hv)
      obtain ⟨field, hfield, hname⟩ := hknown m hm
      exact ⟨_, h m hm field hfield hname⟩
  | _ => cases hv

/-- A value with a form holds no nulls and no numbers with a fraction or an exponent. -/
theorem Form.Fits.isStrict {v : Value} (hv : v.IsJson) {form : Form} (h : form.Fits v) :
    v.IsStrict := by
  induction hv generalizing form with
  | scalar hscalar _ =>
      cases h with
      | text _ | flag _ | depth _ => exact .scalar trivial ⟨trivial, trivial⟩
      | listOf _ | table _ | record _ _ => exact hscalar.elim
  | list _ ih =>
      cases h with
      | listOf h => exact .list fun v hv => ih v hv (h v hv)
  | map hkeys _ _ ih =>
      refine .map hkeys (fun _ _ => ⟨trivial, trivial⟩) fun m hm => ?_
      obtain ⟨form', hform'⟩ := h.exists_fits hm
      exact ih m hm hform'

namespace Schema

/-! ## Schemas of forms -/

/-- A schema describes a form: what has the form conforms to it, and what is strict and conforms to
it has the form. -/
structure Describes (document schema : Value) (form : Form) : Prop where
  conforms : ∀ {v : Value}, form.Fits v → Conforms document schema v
  fits : ∀ {v : Value}, Conforms document schema v → v.IsStrict → form.Fits v

section Describes

variable {document schema : Value} {members : List (Key × Value)} {form : Form}

/-- The schema of texts. -/
theorem describes_text (h : keywordsOf members = { type := some (codeText "string") }) :
    Describes document (.map members) .text where
  conforms hfits := by
    cases hfits with
    | text s => exact (conforms_iff_meets h rfl).mpr { type := meets_word (.string s) }
  fits hconforms _ := by
    have hmeets := (conforms_iff_meets h rfl).mp hconforms
    cases hmeets.hasType .string rfl with
    | string s => exact .text s

/-- The schema of truth values. -/
theorem describes_flag (h : keywordsOf members = { type := some (codeText "boolean") }) :
    Describes document (.map members) .flag where
  conforms hfits := by
    cases hfits with
    | flag b => exact (conforms_iff_meets h rfl).mpr { type := meets_word (.boolean b) }
  fits hconforms _ := by
    have hmeets := (conforms_iff_meets h rfl).mp hconforms
    cases hmeets.hasType .boolean rfl with
    | boolean b => exact .flag b

/-- A number that is not negative and has no fractional part conforms to the schema of depths,
however it is written. -/
theorem conforms_depth (h : keywordsOf members
      = { type := some (codeText "integer"), minimum := some ((0 : ℤ) : ℚ) })
    {v : Value} {n : ℤ} (hnumber : v.number? = some (n : ℚ)) (hn : 0 ≤ n) :
    Conforms document (.map members) v := by
  refine (conforms_iff_meets h rfl).mpr { type := meets_word (.integer hnumber), minimum := ?_ }
  intro bound hbound x hx
  obtain rfl := Option.mem_some_iff.mp hbound
  rw [hnumber] at hx
  obtain rfl := Option.mem_some_iff.mp hx
  exact Int.cast_le.mpr hn

/-- The schema of integers that are not negative. -/
theorem describes_depth (h : keywordsOf members
      = { type := some (codeText "integer"), minimum := some ((0 : ℤ) : ℚ) }) :
    Describes document (.map members) .depth where
  conforms hfits := by
    cases hfits with
    | depth n => exact conforms_depth h rfl (Int.natCast_nonneg n)
  fits {v} hconforms hstrict := by
    have hmeets := (conforms_iff_meets h rfl).mp hconforms
    cases hmeets.hasType .integer rfl with
    | @integer _ n hnumber =>
        -- A double with the value of an integer is not strict.
        cases v with
        | int m =>
            have hle := hmeets.minimum _ rfl _ rfl
            obtain ⟨d, rfl⟩ := Int.eq_ofNat_of_zero_le (Int.cast_le.mp hle)
            exact .depth d
        | float x =>
            cases hstrict with
            | scalar _ hgood => exact hgood.1.elim
        | _ => cases hnumber

/-- The schema of lists. -/
theorem describes_listOf (h : keywordsOf members
      = { type := some (codeText "array"), items := some schema })
    (hitem : Describes document schema form) :
    Describes document (.map members) (.listOf form) where
  conforms hfits := by
    cases hfits with
    | @listOf _ items hitems =>
        refine (conforms_iff_meets h rfl).mpr { type := meets_word (.array items), items := ?_ }
        intro schema' hschema item hmem
        obtain rfl := Option.mem_some_iff.mp hschema
        exact hitem.conforms (hitems item hmem)
  fits hconforms hstrict := by
    have hmeets := (conforms_iff_meets h rfl).mp hconforms
    cases hmeets.hasType .array rfl with
    | array items =>
        exact .listOf fun item hmem =>
          hitem.fits (hmeets.items schema rfl item hmem) (hstrict.items item hmem)

/-- The schema of tables. -/
theorem describes_table (h : keywordsOf members
      = { type := some (codeText "object"), additional := some schema })
    (hentry : Describes document schema form) :
    Describes document (.map members) (.table form) where
  conforms hfits := by
    cases hfits with
    | @table _ entries hentries =>
        refine (conforms_iff_meets h rfl).mpr
          { type := meets_word (.object _), additional := ?_ }
        intro schema' hschema m hm _
        obtain rfl := Option.mem_some_iff.mp hschema
        obtain ⟨entry, hentry', rfl⟩ := List.mem_map.mp hm
        exact hentry.conforms (hentries entry hentry')
  fits hconforms hstrict := by
    have hmeets := (conforms_iff_meets h rfl).mp hconforms
    cases hmeets.hasType .object rfl with
    | object entries =>
        obtain ⟨entries, rfl, hstricts⟩ := hstrict.exists_members
        refine .table fun entry hmem => hentry.fits ?_ (hstricts entry hmem)
        exact hmeets.additional schema rfl _ (List.mem_map_of_mem hmem) fun _ hp => by cases hp

/-- A mapping conforms to the schema of a record if all its keys are known and their values conform
to what is asked of them. -/
theorem conforms_record {properties : List (String × Value)} {entries : List (CodeText × Value)}
    (h : keywordsOf members =
      { type := some (codeText "object")
        properties := (object properties).members
        additional := some (.bool false) })
    (hknown : ∀ entry ∈ entries, ∃ property ∈ properties, entry.1 = codeText property.1)
    (hvalues : ∀ entry ∈ entries, ∀ property ∈ properties, entry.1 = codeText property.1 →
      Conforms document property.2 entry.2) :
    Conforms document (.map members) (.map (stringMembers entries)) := by
  refine (conforms_iff_meets h rfl).mpr
    { type := meets_word (.object _), properties := ?_, additional := ?_ }
  · intro p hp m hm hname
    obtain ⟨property, hproperty, rfl⟩ := List.mem_map.mp hp
    obtain ⟨entry, hentry, rfl⟩ := List.mem_map.mp hm
    exact hvalues entry hentry property hproperty hname
  · intro schema hschema m hm hunknown
    obtain ⟨entry, hentry, rfl⟩ := List.mem_map.mp hm
    obtain ⟨property, hproperty, hname⟩ := hknown entry hentry
    exact absurd hname (hunknown _ (List.mem_map_of_mem hproperty))

/-- The schema of records: each field has a schema of its own, and there are no other members. -/
theorem describes_record {properties : List (String × Value)} {fields : List (String × Form)}
    (h : keywordsOf members =
      { type := some (codeText "object")
        properties := (object properties).members
        additional := some (.bool false) })
    (hfields : List.Forall₂ (fun p field => p.1 = field.1 ∧ Describes document p.2 field.2)
      properties fields) :
    Describes document (.map members) (.record fields) where
  conforms hfits := by
    cases hfits with
    | record hknown hvalues =>
        refine conforms_record h (fun entry hentry => ?_)
          fun entry hentry property hproperty hname => ?_
        · obtain ⟨field, hfield, hname⟩ := hknown entry hentry
          obtain ⟨property, hproperty, hkey, -⟩ := exists_mem_of_forall₂ hfields.flip hfield
          exact ⟨property, hproperty, hname.trans (congrArg codeText hkey.symm)⟩
        · obtain ⟨field, hfield, hkey, hdescribes⟩ := exists_mem_of_forall₂ hfields hproperty
          exact hdescribes.conforms (hvalues entry hentry field hfield (hkey ▸ hname))
  fits hconforms hstrict := by
    have hmeets := (conforms_iff_meets h rfl).mp hconforms
    cases hmeets.hasType .object rfl with
    | object entries =>
        obtain ⟨entries, rfl, hstricts⟩ := hstrict.exists_members
        refine .record (fun entry hentry => ?_) fun entry hentry field hfield hname => ?_
        · by_contra hunknown
          push Not at hunknown
          have hrefused := hmeets.additional (.bool false) rfl _ (List.mem_map_of_mem hentry) ?_
          · cases hrefused
          · intro p hp
            obtain ⟨property, hproperty, rfl⟩ := List.mem_map.mp hp
            obtain ⟨field, hfield, hkey, -⟩ := exists_mem_of_forall₂ hfields hproperty
            exact fun hname => hunknown field hfield (hkey ▸ hname)
        · obtain ⟨property, hproperty, hkey, hdescribes⟩ :=
            exists_mem_of_forall₂ hfields.flip hfield
          refine hdescribes.fits ?_ (hstricts entry hentry)
          exact hmeets.properties _ (List.mem_map_of_mem hproperty) _ (List.mem_map_of_mem hentry)
            (hname.trans (congrArg codeText hkey.symm))

/-- The schema of values that may be null. -/
theorem describes_nullable (h : keywordsOf members
      = { anyOf := some [schema, type "null"] })
    (hform : Describes document schema form) : Describes document (.map members) form where
  conforms hfits := by
    refine (conforms_iff_meets h rfl).mpr { anyOf := ?_ }
    intro alternatives hmem
    obtain rfl := Option.mem_some_iff.mp hmem
    exact ⟨schema, List.mem_cons_self, hform.conforms hfits⟩
  fits hconforms hstrict := by
    have hmeets := (conforms_iff_meets h rfl).mp hconforms
    obtain ⟨chosen, hchosen, hconforms⟩ := hmeets.anyOf _ rfl
    rcases List.mem_cons.mp hchosen with rfl | hchosen
    · exact hform.fits hconforms hstrict
    · obtain rfl := List.mem_singleton.mp hchosen
      have hnull : Meets document { type := some (codeText "null") } _ :=
        (conforms_iff_meets rfl rfl).mp hconforms
      cases hnull.hasType .null rfl with
      | null =>
          cases hstrict with
          | scalar _ hgood => exact hgood.2.elim

/-- A reference to a schema. -/
theorem describes_ref {reference : CodeText} (h : (keywordsOf members).ref = some reference)
    (htarget : target? document reference = some schema) (hform : Describes document schema form) :
    Describes document (.map members) form where
  conforms hfits := .ref h htarget (hform.conforms hfits)
  fits hconforms hstrict := by
    refine hform.fits ?_ hstrict
    cases hconforms with
    | ref href' htarget' hconforms =>
        obtain rfl := Option.some.inj (h.symm.trans href')
        obtain rfl := Option.some.inj (htarget.symm.trans htarget')
        exact hconforms
    | keywords _ hnone _ _ _ _ _ _ _ =>
        rw [h] at hnone
        cases hnone

end Describes

/-- The schema of rules describes their form. -/
theorem describes_rule (document : Value) : Describes document rule ruleForm := by
  refine describes_record rfl ?_
  refine .cons ⟨rfl, describes_nullable rfl (describes_depth rfl)⟩ ?_
  refine .cons ⟨rfl, describes_flag rfl⟩ ?_
  exact .cons ⟨rfl, describes_nullable rfl (describes_listOf rfl (describes_text rfl))⟩ .nil

/-- The schema of configurations describes their form. -/
theorem describes_config : Describes config config configForm := by
  refine describes_record rfl ?_
  refine .cons ⟨rfl, describes_nullable rfl (describes_text rfl)⟩ ?_
  refine .cons ⟨rfl, describes_listOf rfl (describes_text rfl)⟩ ?_
  refine .cons ⟨rfl, describes_listOf rfl (describes_text rfl)⟩ ?_
  refine .cons ⟨rfl, describes_depth rfl⟩ ?_
  exact .cons ⟨rfl, describes_table rfl (describes_ref rfl rfl (describes_rule config))⟩ .nil

end Schema

/-! ## Reading and conforming -/

/-- A configuration is read from what has the form of configurations. -/
theorem exists_ofValue_iff (source : CodeText) {v : Value} (hv : v.IsPlain) :
    (∃ config, Config.ofValue source v = .ok config) ↔ configForm.Fits v := by
  have hlocated := (checks_config hv).located
  have hfits : configForm.Fits v ↔ (checkConfig v).issues = [] := by
    rw [Form.fits_iff (hv.mono fun _ _ => trivial), ← List.map_eq_nil_iff (f := Issue.location),
      List.eq_nil_iff_forall_not_mem]
    refine forall_congr' fun location => not_congr ?_
    rw [hlocated location]
    simp only [List.nil_append, exists_eq_right']
  rw [hfits]
  unfold Config.ofValue
  dsimp only
  constructor
  · rintro ⟨config, h⟩
    split at h
    · next hnone => exact List.isEmpty_iff.mp hnone
    · cases h
  · intro hnone
    exact ⟨_, if_pos (List.isEmpty_iff.mpr hnone)⟩

/-- What is read as a configuration holds no nulls and no numbers with a fraction or an exponent. -/
theorem isStrict_of_ofValue {source : CodeText} {v : Value} (hv : v.IsPlain) {config : Config}
    (h : Config.ofValue source v = .ok config) : v.IsStrict :=
  ((exists_ofValue_iff source hv).mp ⟨config, h⟩).isStrict (hv.mono fun _ _ => trivial)

/-- What is read as a configuration conforms to the schema of configurations and writes its numbers
without fractions and exponents.  What conforms to the schema, writes its numbers so, and holds no
nulls is read. -/
theorem ofValue_iff_conforms (source : CodeText) {v : Value} (hv : v.IsPlain) :
    ((∃ config, Config.ofValue source v = .ok config) →
      Schema.Conforms Schema.config Schema.config v ∧ v.IsTree Value.IsIntegral) ∧
    (Schema.Conforms Schema.config Schema.config v → v.IsStrict →
      ∃ config, Config.ofValue source v = .ok config) := by
  constructor
  · rintro ⟨config, h⟩
    have hfits := (exists_ofValue_iff source hv).mp ⟨config, h⟩
    exact ⟨Schema.describes_config.conforms hfits,
      (isStrict_of_ofValue hv h).mono fun _ hgood => hgood.1⟩
  · intro hconforms hstrict
    exact (exists_ofValue_iff source hv).mpr (Schema.describes_config.fits hconforms hstrict)

/-- A configuration with rules and no fractions. -/
def ruledConfig : Value :=
  .map (stringMembers [(codeText "$schema", .str (codeText "schema.json")),
    (codeText "files", .map (stringMembers [(codeText "*.json", .map (stringMembers
      [(codeText "sortOrder", .list [.str (codeText "name")]), (codeText "sortFrom", .int 3)]))]))])

/-- The configuration with rules is read, and so it conforms. -/
theorem conforms_ruledConfig :
    ruledConfig.IsPlain ∧ Schema.Conforms Schema.config Schema.config ruledConfig ∧
      ∃ config, Config.ofValue (codeText "test") ruledConfig = .ok config := by
  have hplain : ruledConfig.IsPlain := by
    have hrule : (Value.map (stringMembers
        [(codeText "sortOrder", .list [.str (codeText "name")]),
          (codeText "sortFrom", .int 3)])).IsPlain := by
      refine .map (by decide) ?_ ?_ <;> simp only [List.forall_mem_cons]
      · exact ⟨rfl, rfl, List.forall_mem_nil _⟩
      · exact ⟨.list (List.forall_mem_singleton.mpr (.scalar trivial rfl)),
          .scalar trivial trivial, List.forall_mem_nil _⟩
    have hfiles : (Value.map (stringMembers [(codeText "*.json", .map (stringMembers
        [(codeText "sortOrder", .list [.str (codeText "name")]),
          (codeText "sortFrom", .int 3)]))])).IsPlain :=
      .map (by decide) (List.forall_mem_singleton.mpr rfl) (List.forall_mem_singleton.mpr hrule)
    refine .map (by decide) ?_ ?_ <;> simp only [List.forall_mem_cons]
    · exact ⟨rfl, rfl, List.forall_mem_nil _⟩
    · exact ⟨.scalar trivial rfl, hfiles, List.forall_mem_nil _⟩
  have hread : ∃ config, Config.ofValue (codeText "test") ruledConfig = .ok config := ⟨_, rfl⟩
  exact ⟨hplain, ((ofValue_iff_conforms (codeText "test") hplain).1 hread).1, hread⟩

/-- A configuration with a depth that is written with a fraction. -/
def pointedConfig : Value :=
  .map (stringMembers [(codeText "sortFrom",
    .float (Json.Numeral.double ⟨false, ['1'], some ['0'], none⟩))])

/-- The depth with a fraction conforms to the schema, but it is not read. -/
theorem conforms_pointedConfig :
    pointedConfig.IsPlain ∧ Schema.Conforms Schema.config Schema.config pointedConfig ∧
      ¬ ∃ config, Config.ofValue (codeText "test") pointedConfig = .ok config := by
  have hplain : pointedConfig.IsPlain :=
    .map (by decide) (List.forall_mem_singleton.mpr rfl)
      (List.forall_mem_singleton.mpr (.scalar trivial trivial))
  have hnumber : (Value.float (Json.Numeral.double ⟨false, ['1'], some ['0'], none⟩)).number?
      = some ((1 : ℤ) : ℚ) := by
    have hplace : Json.Numeral.double ⟨false, ['1'], some ['0'], none⟩
        = .finite false ⟨1023 * Nat.pow 2 52, by decide⟩ := by decide +kernel
    have hunits : Magnitude.units ⟨1023 * Nat.pow 2 52, by decide⟩ = 2 ^ unitExponent := by
      decide +kernel
    rw [hplace, Value.number?, Double.number?, hunits, Nat.cast_pow, Nat.cast_ofNat,
      div_self (pow_ne_zero _ two_ne_zero), if_neg Bool.false_ne_true, one_mul, Int.cast_one]
  refine ⟨hplain, Schema.conforms_record rfl ?_ ?_, ?_⟩
  · exact List.forall_mem_singleton.mpr
      ⟨_, .tail _ (.tail _ (.tail _ (.head _))), rfl⟩
  · refine List.forall_mem_singleton.mpr fun property hproperty hname => ?_
    simp only [List.mem_cons, List.not_mem_nil, or_false] at hproperty
    rcases hproperty with rfl | rfl | rfl | rfl | rfl
    · exact absurd hname (by decide)
    · exact absurd hname (by decide)
    · exact absurd hname (by decide)
    · exact Schema.conforms_depth rfl hnumber (by decide)
    · exact absurd hname (by decide)
  · rintro ⟨config, h⟩
    obtain ⟨members, hmembers, hstrict⟩ := (isStrict_of_ofValue hplain h).exists_members
    obtain rfl := stringMembers_injective hmembers
    cases hstrict _ (List.mem_singleton_self _) with
    | scalar _ hgood => exact hgood.1.elim

end KeyOrder
