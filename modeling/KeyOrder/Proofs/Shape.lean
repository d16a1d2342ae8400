import KeyOrder.Json.Error
import KeyOrder.Proofs.Members
import Mathlib
/-!
# The shape of values

A decoded value is made of scalars, lists, and mappings with distinct string keys;
its scalars are bounded integers, finite doubles and strings in which no two halves
of a pair stand next to each other.  `IsTree` gives the shape for any class of
scalars, `IsJson` for all of them and `IsDocument` for those of documents.
-/

namespace KeyOrder

/-! ## Strings without pairs of halves -/

/-- Whether two code points are the halves of a pair. -/
def CodePoint.pairsWith : CodePoint → CodePoint → Bool
  | .leading _, .trailing _ => true
  | _, _ => false

/-- No first half has a second half right after it. -/
def CodeText.IsJoined (s : CodeText) : Prop :=
  s.IsChain fun a b => a.pairsWith b = false

instance (s : CodeText) : Decidable s.IsJoined :=
  inferInstanceAs (Decidable (s.IsChain fun a b => a.pairsWith b = false))

/-- Joining pairs leaves a string alone in which there are none. -/
theorem CodeText.joinPairs_of_isJoined {s : CodeText} (h : s.IsJoined) : joinPairs s = s := by
  fun_induction joinPairs s with
  | case1 first second rest ih =>
      have hpair := (List.isChain_cons_cons.mp h).1
      simp [CodePoint.pairsWith] at hpair
  | case2 c rest hno ih => rw [ih h.of_cons]
  | case3 => rfl

/-- What joining pairs starts with is a joined character or what the string starts with. -/
theorem CodeText.head?_joinPairs (s : CodeText) :
    (∃ c, (joinPairs s).head? = some (.scalar c)) ∨ (joinPairs s).head? = s.head? := by
  fun_induction joinPairs s with
  | case1 first second rest ih => exact Or.inl ⟨_, rfl⟩
  | case2 c rest hno ih => exact Or.inr rfl
  | case3 => exact Or.inr rfl

/-- Joining pairs leaves no two halves of a pair next to each other. -/
theorem CodeText.isJoined_joinPairs (s : CodeText) : (joinPairs s).IsJoined := by
  fun_induction joinPairs s with
  | case1 first second rest ih =>
      refine List.isChain_cons.mpr ⟨?_, ih⟩
      intro b _
      rfl
  | case2 c rest hno ih =>
      refine List.isChain_cons.mpr ⟨?_, ih⟩
      intro b hb
      -- `b` is a character, or it stood after `c` before and made no pair with it.
      rcases head?_joinPairs rest with ⟨d, hd⟩ | hrest
      · rw [hd] at hb
        obtain rfl := Option.some.inj hb
        cases c <;> rfl
      · rw [hrest] at hb
        obtain ⟨tail, rfl⟩ : ∃ tail, rest = b :: tail := by
          cases rest with
          | nil => simp at hb
          | cons a tail => exact ⟨tail, by rw [Option.some.inj hb]⟩
        cases c with
        | leading first =>
            cases b with
            | trailing second => exact absurd rfl (hno first second tail rfl)
            | scalar _ => rfl
            | leading _ => rfl
        | scalar _ => rfl
        | trailing _ => rfl
  | case3 => exact List.isChain_nil

/-! ## Scalars and containers -/

/-- Values that hold no others and are no objects of other types. -/
def Value.IsScalar : Value → Prop
  | .null => True
  | .bool _ => True
  | .int _ => True
  | .float _ => True
  | .str _ => True
  | _ => False

/-- A statement holds of every value if it holds of scalars and of objects of other types, and of
every list, tuple and mapping of whose values it holds. -/
@[elab_as_elim]
theorem Value.inductionOn {motive : Value → Prop} (v : Value)
    (scalar : ∀ v : Value, v.IsScalar → motive v)
    (list : ∀ items : List Value, (∀ v ∈ items, motive v) → motive (.list items))
    (tuple : ∀ items : List Value, (∀ v ∈ items, motive v) → motive (.tuple items))
    (map : ∀ members : List (Key × Value), (∀ m ∈ members, motive m.2) → motive (.map members))
    (object : ∀ (typeName : String) (content : List Value), motive (.object typeName content)) :
    motive v := by
  match v with
  | .null => exact scalar .null trivial
  | .bool b => exact scalar (.bool b) trivial
  | .int n => exact scalar (.int n) trivial
  | .float x => exact scalar (.float x) trivial
  | .str s => exact scalar (.str s) trivial
  | .list items => exact list items fun v _ => inductionOn v scalar list tuple map object
  | .tuple items => exact tuple items fun v _ => inductionOn v scalar list tuple map object
  | .map members =>
      refine map members fun m hm => ?_
      have hsize : sizeOf m.2 < 1 + sizeOf members := by
        obtain ⟨key, w⟩ := m
        have := List.sizeOf_lt_of_mem hm
        simp only [Prod.mk.sizeOf_spec] at this ⊢
        omega
      exact inductionOn m.2 scalar list tuple map object
  | .object typeName content => exact object typeName content
termination_by sizeOf v

/-! ## Trees -/

/-- Values made of scalars of a class, lists, and mappings with distinct string keys of the
class. -/
inductive Value.IsTree (good : Value → Prop) : Value → Prop
  | scalar {v : Value} (hscalar : v.IsScalar) (hgood : good v) : IsTree good v
  | list {items : List Value} (h : ∀ v ∈ items, IsTree good v) : IsTree good (.list items)
  | map {members : List (CodeText × Value)} (hkeys : (members.map Prod.fst).Nodup)
      (hgood : ∀ m ∈ members, good (.str m.1)) (h : ∀ m ∈ members, IsTree good m.2) :
      IsTree good (.map (stringMembers members))

/-- Values made of any scalars, lists, and mappings with distinct string keys. -/
def Value.IsJson (v : Value) : Prop :=
  v.IsTree fun _ => True

/-- Scalars that a document can hold. -/
def Value.IsDocumentScalar : Value → Prop
  | .int n => n.natAbs < 10 ^ maxIntegerDigits
  | .float x => ∃ negative m, x = .finite negative m
  | .str s => s.IsJoined
  | _ => True

/-- Values that a document can hold. -/
def Value.IsDocument (v : Value) : Prop :=
  v.IsTree IsDocumentScalar

/-- A tree of scalars of a class is one of scalars of any wider class. -/
theorem Value.IsTree.mono {good good' : Value → Prop} (hle : ∀ v, good v → good' v) {v : Value}
    (h : v.IsTree good) : v.IsTree good' := by
  induction h with
  | scalar hscalar hgood => exact .scalar hscalar (hle _ hgood)
  | list _ ih => exact .list ih
  | map hkeys hgood _ ih => exact .map hkeys (fun m hm => hle _ (hgood m hm)) ih

/-- A mapping of document values with distinct joined keys is a document value. -/
theorem Value.IsDocument.map {members : List (CodeText × Value)}
    (hkeys : (members.map Prod.fst).Nodup) (hjoined : ∀ m ∈ members, m.1.IsJoined)
    (h : ∀ m ∈ members, m.2.IsDocument) : (Value.map (stringMembers members)).IsDocument :=
  IsTree.map hkeys hjoined h

/-- A document value is one of the values with distinct string keys. -/
theorem Value.IsDocument.isJson {v : Value} (h : v.IsDocument) : v.IsJson :=
  IsTree.mono (fun _ _ => trivial) h

/-! ## String members -/

@[simp] theorem stringMembers_nil : stringMembers [] = [] := by
  rfl

@[simp] theorem stringMembers_cons (m : CodeText × Value) (members : List (CodeText × Value)) :
    stringMembers (m :: members) = (.str m.1, m.2) :: stringMembers members := by
  rfl

/-- Members with string keys are determined by the mapping that they make. -/
theorem stringMembers_injective : Function.Injective stringMembers := by
  apply List.map_injective_iff.mpr
  rintro ⟨s, v⟩ ⟨t, w⟩ h
  simpa using h

/-- Merging distinct keys makes the mapping of the members themselves. -/
theorem Value.ofMembers_of_nodup {members : List (CodeText × Value)}
    (h : (members.map Prod.fst).Nodup) :
    Value.ofMembers members = .map (stringMembers members) := by
  rw [Value.ofMembers, mergeMembers_of_nodup h]

/-! ## Nesting -/

/-- The greatest nesting among items is bounded by what bounds each of them. -/
theorem nestingOfItems_le_iff {items : List Value} {n : Nat} :
    nestingOfItems items ≤ n ↔ ∀ v ∈ items, v.nesting ≤ n := by
  induction items with
  | nil => simp [nestingOfItems]
  | cons v items ih => rw [nestingOfItems, Nat.max_le, ih, List.forall_mem_cons]

/-- The greatest nesting among members is bounded by what bounds the value of each of them. -/
theorem nestingOfMembers_le_iff {members : List (Key × Value)} {n : Nat} :
    nestingOfMembers members ≤ n ↔ ∀ m ∈ members, m.2.nesting ≤ n := by
  induction members with
  | nil => simp [nestingOfMembers]
  | cons m members ih => rw [nestingOfMembers, Nat.max_le, ih, List.forall_mem_cons]

/-- With string keys too. -/
theorem nestingOfStringMembers_le_iff {members : List (CodeText × Value)} {n : Nat} :
    nestingOfMembers (stringMembers members) ≤ n ↔ ∀ m ∈ members, m.2.nesting ≤ n := by
  rw [nestingOfMembers_le_iff, stringMembers, List.forall_mem_map]

/-- Scalars have no nesting. -/
theorem Value.nesting_of_isScalar {v : Value} (h : v.IsScalar) : v.nesting = 0 := by
  cases v <;> first | rfl | exact absurd h id

end KeyOrder
