import KeyOrder.Config.Check
import KeyOrder.Config.Schema
import KeyOrder.Store.Path
import Mathlib
/-!
# Schemas

A schema is a document that describes values by keywords: the type of a value, a least
number, schemas for its items and members, alternatives.  A reference stands for the schema
that it leads to.  A value conforms to a schema without a reference exactly if it meets each
of its keywords.
-/

namespace KeyOrder

/-! ## Parts of values -/

/-- The items of a list. -/
def Value.items : Value → List Value
  | .list items => items
  | _ => []

/-- The members of a mapping. -/
def Value.members : Value → List (Key × Value)
  | .map members => members
  | _ => []

/-- The text of a value. -/
def Value.text? : Value → Option CodeText
  | .str s => some s
  | _ => none

/-- The value of a double, if it is finite. -/
def Double.number? : Double → Option ℚ
  | .finite negative m =>
    some ((if negative then -1 else 1) * (m.units / 2 ^ unitExponent : ℚ))
  | _ => none

/-- The number that a value is. -/
def Value.number? : Value → Option ℚ
  | .int n => some n
  | .float x => x.number?
  | _ => none

/-- The names of types. -/
inductive TypeName where
  | null
  | boolean
  | string
  | number
  | integer
  | array
  | object

/-- The word for a type. -/
def TypeName.word : TypeName → String
  | null => "null"
  | boolean => "boolean"
  | string => "string"
  | number => "number"
  | integer => "integer"
  | array => "array"
  | object => "object"

/-- A value has a type.  A number is an integer if it has no fractional part, however it is
written. -/
inductive Value.HasType : Value → TypeName → Prop
  | null : HasType .null .null
  | boolean (b : Bool) : HasType (.bool b) .boolean
  | string (s : CodeText) : HasType (.str s) .string
  | number {v : Value} {x : ℚ} (h : v.number? = some x) : HasType v .number
  | integer {v : Value} {n : ℤ} (h : v.number? = some (n : ℚ)) : HasType v .integer
  | array (items : List Value) : HasType (.list items) .array
  | object (members : List (Key × Value)) : HasType (.map members) .object

/-- Types have different words. -/
theorem TypeName.eq_of_word {name name' : TypeName}
    (h : codeText name.word = codeText name'.word) : name = name' := by
  cases name <;> cases name' <;> first | rfl | exact absurd h (by decide)

/-! ## Schemas -/

namespace Schema

/-- What the members of a schema ask for; all other members are notes. -/
structure Keywords where
  /-- Where the schema stands that is meant instead. -/
  ref : Option CodeText := none
  type : Option CodeText := none
  minimum : Option ℚ := none
  /-- The schema of all items. -/
  items : Option Value := none
  /-- The schemas of members by their names. -/
  properties : List (Key × Value) := []
  /-- The schema of all other members. -/
  additional : Option Value := none
  anyOf : Option (List Value) := none

/-- The keywords of a schema. -/
def keywordsOf (members : List (Key × Value)) : Keywords where
  ref := (memberAt? members "$ref").bind Value.text?
  type := (memberAt? members "type").bind Value.text?
  minimum := (memberAt? members "minimum").bind Value.number?
  items := memberAt? members "items"
  properties := ((memberAt? members "properties").map Value.members).getD []
  additional := memberAt? members "additionalProperties"
  anyOf := (memberAt? members "anyOf").map Value.items

/-- The part of a document that names lead to. -/
def follow? (document : Value) : List CodeText → Option Value
  | [] => some document
  | name :: names =>
    ((document.members.find? fun m => m.1.name == name).map Prod.snd).bind fun part =>
      follow? part names

/-- The part of a document that a reference within it stands for. -/
def target? (document : Value) (reference : CodeText) : Option Value :=
  match splitSlashes reference with
  | [.scalar '#'] :: names => follow? document names
  | _ => none

/-- A value conforms to a schema that is part of a document.  A reference stands for what it leads
to, whatever stands beside it; of several alternatives one is chosen. -/
inductive Conforms (document : Value) : Value → Value → Prop
  | anything (v : Value) : Conforms document (.bool true) v
  | ref {members : List (Key × Value)} {reference : CodeText} {target v : Value}
      (href : (keywordsOf members).ref = some reference)
      (htarget : target? document reference = some target) (h : Conforms document target v) :
      Conforms document (.map members) v
  | keywords {members : List (Key × Value)} (chosen : Value) {v : Value}
      (href : (keywordsOf members).ref = none)
      (htype : ∀ word ∈ (keywordsOf members).type, ∃ name : TypeName,
        word = codeText name.word ∧ v.HasType name)
      (hminimum : ∀ bound ∈ (keywordsOf members).minimum, ∀ x ∈ v.number?, bound ≤ x)
      (hitems : ∀ schema ∈ (keywordsOf members).items, ∀ item ∈ v.items,
        Conforms document schema item)
      (hproperties : ∀ p ∈ (keywordsOf members).properties, ∀ m ∈ v.members,
        m.1.name = p.1.name → Conforms document p.2 m.2)
      (hadditional : ∀ schema ∈ (keywordsOf members).additional, ∀ m ∈ v.members,
        (∀ p ∈ (keywordsOf members).properties, m.1.name ≠ p.1.name) →
          Conforms document schema m.2)
      (hchosen : ∀ alternatives ∈ (keywordsOf members).anyOf, chosen ∈ alternatives)
      (hanyOf : (keywordsOf members).anyOf ≠ none → Conforms document chosen v) :
      Conforms document (.map members) v

/-- What keywords ask for, one by one. -/
structure Meets (document : Value) (k : Keywords) (v : Value) : Prop where
  type : ∀ word ∈ k.type, ∃ name : TypeName, word = codeText name.word ∧ v.HasType name := by simp
  minimum : ∀ bound ∈ k.minimum, ∀ x ∈ v.number?, bound ≤ x := by simp
  items : ∀ schema ∈ k.items, ∀ item ∈ v.items, Conforms document schema item := by simp
  properties : ∀ p ∈ k.properties, ∀ m ∈ v.members, m.1.name = p.1.name →
    Conforms document p.2 m.2 := by simp
  additional : ∀ schema ∈ k.additional, ∀ m ∈ v.members,
    (∀ p ∈ k.properties, m.1.name ≠ p.1.name) → Conforms document schema m.2 := by simp
  anyOf : ∀ alternatives ∈ k.anyOf, ∃ schema ∈ alternatives, Conforms document schema v := by simp

section Keywords

variable {document : Value} {members : List (Key × Value)} {k : Keywords} {v : Value}

/-- A value conforms to a schema without a reference if it meets its keywords. -/
theorem conforms_iff_meets (h : keywordsOf members = k) (href : k.ref = none) :
    Conforms document (.map members) v ↔ Meets document k v := by
  subst h
  constructor
  · intro h
    cases h with
    | ref hsome _ _ =>
        rw [href] at hsome
        cases hsome
    | keywords chosen _ htype hminimum hitems hproperties hadditional hchosen hanyOf =>
        refine ⟨htype, hminimum, hitems, hproperties, hadditional, fun alternatives hmem => ?_⟩
        refine ⟨chosen, hchosen alternatives hmem, hanyOf fun hnone => ?_⟩
        rw [hnone] at hmem
        cases hmem
  · rintro ⟨htype, hminimum, hitems, hproperties, hadditional, hanyOf⟩
    cases halternatives : (keywordsOf members).anyOf with
    | none =>
        refine .keywords .null href htype hminimum hitems hproperties hadditional ?_ ?_
        · rw [halternatives]
          exact fun _ hmem => by cases hmem
        · exact fun hne => absurd halternatives hne
    | some alternatives =>
        obtain ⟨schema, hschema, hconforms⟩ := hanyOf alternatives halternatives
        refine .keywords schema href htype hminimum hitems hproperties hadditional ?_
          fun _ => hconforms
        rw [halternatives]
        intro alternatives' hmem
        obtain rfl := Option.mem_some_iff.mp hmem
        exact hschema

/-- A value of a type meets the word for it. -/
theorem meets_word {name : TypeName} (h : v.HasType name) :
    ∀ word ∈ some (codeText name.word), ∃ name : TypeName,
      word = codeText name.word ∧ v.HasType name := by
  intro word hword
  exact ⟨name, (Option.mem_some_iff.mp hword).symm, h⟩

/-- A value that meets keywords has the type that they name. -/
theorem Meets.hasType (h : Meets document k v) (name : TypeName)
    (htype : k.type = some (codeText name.word)) : v.HasType name := by
  obtain ⟨name', hword, hhas⟩ := h.type _ htype
  rwa [TypeName.eq_of_word hword]

end Keywords

end Schema

end KeyOrder
