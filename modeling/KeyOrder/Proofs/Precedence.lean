import KeyOrder.Sorting.Rank
import Mathlib.Data.List.Basic
/-!
# Precedence of keys

A custom order tells of two different keys which one comes first: the keys that it
lists come by their first occurrence there, all others after them and by code.
This is a strict linear order on keys, so sorting by rank has one result for
every set of keys, whatever order they were given in.
-/

namespace KeyOrder

/-! ## Order by code -/

/-- The code of a character is not that of one half of a pair. -/
theorem toNat_lt_or_lt (c : Char) : c.toNat < 0xD800 ∨ 0xDFFF < c.toNat := by
  rcases c.valid with h | h
  · exact Or.inl h
  · exact Or.inr h.1

/-- A code point is determined by its code. -/
theorem CodePoint.code_injective : Function.Injective CodePoint.code := by
  intro a b h
  rcases a with c | bits | bits <;> rcases b with d | bits' | bits' <;>
    simp only [CodePoint.code] at h
  -- Characters and the two kinds of halves have codes in three disjoint ranges.
  · rw [Char.toNat_inj.mp h]
  · have := toNat_lt_or_lt c; omega
  · have := toNat_lt_or_lt c; omega
  · have := toNat_lt_or_lt d; omega
  · rw [Fin.ext (by omega : bits.val = bits'.val)]
  · omega
  · have := toNat_lt_or_lt d; omega
  · omega
  · rw [Fin.ext (by omega : bits.val = bits'.val)]

/-- The codes of a decoded string. -/
def CodeText.codes (s : CodeText) : List Nat :=
  s.map CodePoint.code

/-- A decoded string is determined by its codes. -/
theorem CodeText.codes_injective : Function.Injective CodeText.codes :=
  List.map_injective_iff.mpr CodePoint.code_injective

/-- The dictionary order compares the rows of ranks. -/
theorem dictionaryLe_iff {α : Type} (rank : α → Nat) (s t : List α) :
    dictionaryLe rank s t = true ↔ ¬ t.map rank < s.map rank := by
  induction s generalizing t with
  | nil => simp [dictionaryLe]
  | cons a s ih =>
      cases t with
      | nil => simp [dictionaryLe]
      | cons b t =>
          rw [dictionaryLe, Bool.or_eq_true, Bool.and_eq_true, decide_eq_true_eq, beq_iff_eq, ih t,
            List.map_cons, List.map_cons, List.cons_lt_cons_iff]
          -- The rest decides only between equal first ranks.
          by_cases hrest : t.map rank < s.map rank
          · simp only [hrest, not_true_eq_false, and_false, and_true, or_false]
            omega
          · simp only [hrest, not_false_eq_true, and_true, and_false, or_false]
            omega

/-! ## Places of ranks -/

/-- A rank as a row of numbers: the class of the key, and its place in that class. -/
def Rank.place : Rank → List Nat
  | listed position => [0, position]
  | other key => 1 :: key.codes

/-- Ranks are compared by their places. -/
theorem Rank.le_iff_place (a b : Rank) : a.le b = true ↔ ¬ b.place < a.place := by
  cases a with
  | listed i =>
      cases b with
      | listed j => simp [Rank.le, Rank.place, List.cons_lt_cons_iff]
      | other t => simp [Rank.le, Rank.place, List.cons_lt_cons_iff]
  | other s =>
      cases b with
      | listed j => simp [Rank.le, Rank.place, List.cons_lt_cons_iff]
      | other t =>
          simp only [Rank.le, Rank.place, CodeText.le, dictionaryLe_iff, CodeText.codes,
            List.cons_lt_cons_iff]
          simp

/-- A rank is determined by its place. -/
theorem Rank.place_injective : Function.Injective Rank.place := by
  intro a b h
  cases a with
  | listed i =>
      cases b with
      | listed j => simpa [Rank.place] using h
      | other t => simp [Rank.place] at h
  | other s =>
      cases b with
      | listed j => simp [Rank.place] at h
      | other t =>
          simp only [Rank.place, List.cons.injEq, true_and] at h
          rw [CodeText.codes_injective h]

/-- A listed key has the rank of its first occurrence. -/
theorem rankIn_of_mem {order : List CodeText} {key : CodeText} (h : key ∈ order) :
    rankIn order key = .listed (order.idxOf key) := by
  obtain ⟨position, hposition⟩ := Option.isSome_iff_exists.mp (List.isSome_idxOf?.mpr h)
  have hfirst : order.idxOf key = position := by
    rw [List.idxOf_eq_getD_idxOf?, hposition, Option.getD_some]
  rw [rankIn, hposition, hfirst]

/-- A key that is not listed is its own rank. -/
theorem rankIn_of_not_mem {order : List CodeText} {key : CodeText} (h : key ∉ order) :
    rankIn order key = .other key := by
  unfold rankIn
  rw [List.idxOf?_eq_none_iff.mpr h]

/-- Different keys have different ranks. -/
theorem rankIn_injective (order : List CodeText) : Function.Injective (rankIn order) := by
  intro s t h
  by_cases hs : s ∈ order <;> by_cases ht : t ∈ order
  · rw [rankIn_of_mem hs, rankIn_of_mem ht, Rank.listed.injEq] at h
    exact (List.idxOf_inj hs).mp h
  · rw [rankIn_of_mem hs, rankIn_of_not_mem ht] at h
    cases h
  · rw [rankIn_of_not_mem hs, rankIn_of_mem ht] at h
    cases h
  · rw [rankIn_of_not_mem hs, rankIn_of_not_mem ht, Rank.other.injEq] at h
    exact h

/-! ## Precedence -/

/-- Order of keys by code: at the first difference the smaller code decides, and a key comes before
its extensions. -/
def CodeText.Before (s t : CodeText) : Prop :=
  s.codes < t.codes

/-- Whether a key stands before another one under a custom order: listed keys by their first
occurrence, then all others by code. -/
def Precedes (order : List CodeText) (s t : CodeText) : Prop :=
  if s ∈ order then t ∈ order → order.idxOf s < order.idxOf t
  else t ∉ order ∧ s.Before t

/-- Without a custom order the code decides. -/
@[simp] theorem precedes_nil (s t : CodeText) : Precedes [] s t ↔ s.Before t := by
  simp [Precedes]

/-- A key precedes another one exactly if its rank has the lesser place. -/
theorem precedes_iff_place_lt (order : List CodeText) (s t : CodeText) :
    Precedes order s t ↔ (rankIn order s).place < (rankIn order t).place := by
  unfold Precedes CodeText.Before
  by_cases hs : s ∈ order <;> by_cases ht : t ∈ order
  · simp [rankIn_of_mem hs, rankIn_of_mem ht, hs, ht, Rank.place, List.cons_lt_cons_iff]
  · simp [rankIn_of_mem hs, rankIn_of_not_mem ht, hs, ht, Rank.place, List.cons_lt_cons_iff]
  · simp [rankIn_of_not_mem hs, rankIn_of_mem ht, hs, ht, Rank.place, List.cons_lt_cons_iff]
  · simp [rankIn_of_not_mem hs, rankIn_of_not_mem ht, hs, ht, Rank.place]

/-- No two keys precede each other. -/
theorem Precedes.asymm {order : List CodeText} {s t : CodeText} (h : Precedes order s t) :
    ¬ Precedes order t s := by
  rw [precedes_iff_place_lt] at *
  exact List.lt_asymm h

/-- Ranks in order are those of equal keys, or of keys of which the first precedes. -/
theorem rank_le_iff (order : List CodeText) (s t : CodeText) :
    (rankIn order s).le (rankIn order t) = true ↔ Precedes order s t ∨ s = t := by
  rw [Rank.le_iff_place, List.not_lt, List.le_iff_lt_or_eq, precedes_iff_place_lt,
    Rank.place_injective.eq_iff, (rankIn_injective order).eq_iff]

/-- Ranks are in order unless the second key precedes the first one. -/
theorem rank_le_iff_not_precedes (order : List CodeText) (s t : CodeText) :
    (rankIn order s).le (rankIn order t) = true ↔ ¬ Precedes order t s := by
  rw [Rank.le_iff_place, precedes_iff_place_lt]

/-- Keys that do not precede each other are equal. -/
theorem eq_of_not_precedes {order : List CodeText} {s t : CodeText} (hst : ¬ Precedes order s t)
    (hts : ¬ Precedes order t s) : s = t :=
  ((rank_le_iff order s t).mp ((rank_le_iff_not_precedes order s t).mpr hts)).resolve_left hst

/-- Ranks are compared in a chain. -/
theorem rank_le_trans (order : List CodeText) (s t u : CodeText)
    (hst : (rankIn order s).le (rankIn order t) = true)
    (htu : (rankIn order t).le (rankIn order u) = true) :
    (rankIn order s).le (rankIn order u) = true := by
  rw [Rank.le_iff_place, List.not_lt] at *
  exact List.le_trans hst htu

/-- Of two ranks one comes first. -/
theorem rank_le_total (order : List CodeText) (s t : CodeText) :
    ((rankIn order s).le (rankIn order t) || (rankIn order t).le (rankIn order s)) = true := by
  rw [Bool.or_eq_true, Rank.le_iff_place, Rank.le_iff_place, List.not_lt, List.not_lt]
  exact List.le_total _ _

/-! ## Sorting by rank -/

variable {α : Type}

/-- Sorting by rank rearranges the pairs. -/
theorem sortByRank_perm (order : List CodeText) (pairs : List (CodeText × α)) :
    (sortByRank order pairs).Perm pairs :=
  List.mergeSort_perm _ _

/-- Sorting by rank brings ranks into order. -/
theorem pairwise_le_sortByRank (order : List CodeText) (pairs : List (CodeText × α)) :
    (sortByRank order pairs).Pairwise
      fun p q => (rankIn order p.1).le (rankIn order q.1) = true :=
  List.pairwise_mergeSort (fun p q r => rank_le_trans order p.1 q.1 r.1)
    (fun p q => rank_le_total order p.1 q.1) pairs

/-- After sorting by rank, distinct keys stand in the order of precedence. -/
theorem pairwise_precedes_sortByRank (order : List CodeText) (pairs : List (CodeText × α))
    (hkeys : (pairs.map Prod.fst).Nodup) :
    ((sortByRank order pairs).map Prod.fst).Pairwise (Precedes order) := by
  have hdistinct : ((sortByRank order pairs).map Prod.fst).Nodup :=
    ((sortByRank_perm order pairs).map Prod.fst).nodup_iff.mpr hkeys
  rw [List.pairwise_map]
  have hne := List.pairwise_map.mp hdistinct
  refine ((pairwise_le_sortByRank order pairs).and hne).imp ?_
  rintro p q ⟨hle, hpq⟩
  exact ((rank_le_iff order p.1 q.1).mp hle).resolve_right hpq

/-- Keys can be brought into the order of precedence in one way only. -/
theorem eq_of_pairwise_precedes {order s t : List CodeText} (hs : s.Pairwise (Precedes order))
    (ht : t.Pairwise (Precedes order)) (h : s.Perm t) : s = t :=
  h.eq_of_pairwise (fun _ _ _ _ hab hba => absurd hba hab.asymm) hs ht

end KeyOrder
