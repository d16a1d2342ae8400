import KeyOrder.Text.Utf8
import Mathlib
/-!
# Decoding what was encoded

The bytes of a text are decoded to the text, and no other bytes are.  A character goes
through the decoder as its first byte and its continuation bytes, each of which carries six
bits of it; and whatever may still follow a part of a character completes it to the bytes of
a character.
-/

namespace KeyOrder.Utf8

/-! ## Single bytes -/

/-- The value of a small number as a byte. -/
theorem toNat_ofNat_of_lt {n : Nat} (h : n < 256) : (UInt8.ofNat n).toNat = n := by
  rw [UInt8.toNat_ofNat']
  exact Nat.mod_eq_of_lt h

/-- The value of a continuation byte. -/
theorem toNat_tail (n : Nat) : (tail n).toNat = 0x80 + n % 64 :=
  toNat_ofNat_of_lt (by omega)

/-- The last continuation byte completes the character. -/
theorem next_tail_last (seen : List UInt8) (n : Nat) :
    Pending.next ⟨seen, n / 64, 0, 0x80, 0xBF⟩ (tail n) = some (.inl (Char.ofNat n)) := by
  have hrange : 0x80 ≤ 0x80 + n % 64 ∧ 0x80 + n % 64 ≤ 0xBF := by omega
  have hn : n / 64 * 64 + (0x80 + n % 64 - 0x80) = n := by omega
  simp only [Pending.next, toNat_tail, hrange, hn, decide_true, Bool.and_true, if_true]

/-- A continuation byte before the last one adds its bits; after it any other one is allowed. -/
theorem next_tail_further (seen : List UInt8) (n owed : Nat) {low high : Nat}
    (hlow : low ≤ 0x80 + n % 64) (hhigh : 0x80 + n % 64 ≤ high) :
    Pending.next ⟨seen, n / 64, owed + 1, low, high⟩ (tail n)
      = some (.inr ⟨tail n :: seen, n, owed, 0x80, 0xBF⟩) := by
  have hn : n / 64 * 64 + (0x80 + n % 64 - 0x80) = n := by omega
  simp only [Pending.next, toNat_tail, hlow, hhigh, hn, decide_true, Bool.and_true, if_true]

/-- What the first of two bytes announces. -/
theorem first_two {n : Nat} (hlow : 0x80 ≤ n) (hhigh : n < 0x800) :
    first (UInt8.ofNat (0xC0 + n / 64))
      = some (.inr ⟨[UInt8.ofNat (0xC0 + n / 64)], n / 64, 0, 0x80, 0xBF⟩) := by
  have hlead := toNat_ofNat_of_lt (by omega : 0xC0 + n / 64 < 256)
  simp only [first, hlead]
  rw [if_neg (by omega), if_neg (by omega), if_pos (by omega), Nat.add_sub_cancel_left]

/-- What the first of three bytes announces; the second one may not make the form overlong, nor the
character a half of a pair. -/
theorem first_three {n : Nat} (hlow : 0x800 ≤ n) (hhigh : n < 0x10000)
    (hhalf : n < 0xD800 ∨ 0xDFFF < n) :
    ∃ low high, first (UInt8.ofNat (0xE0 + n / 4096))
        = some (.inr ⟨[UInt8.ofNat (0xE0 + n / 4096)], n / 64 / 64, 1, low, high⟩) ∧
      low ≤ 0x80 + n / 64 % 64 ∧ 0x80 + n / 64 % 64 ≤ high := by
  have hlead := toNat_ofNat_of_lt (by omega : 0xE0 + n / 4096 < 256)
  simp only [first, hlead, (by omega : n / 64 / 64 = n / 4096)]
  rw [if_neg (by omega), if_neg (by omega), if_neg (by omega)]
  by_cases hleast : n / 4096 = 0
  · rw [if_pos (by omega), hleast]
    exact ⟨0xA0, 0xBF, rfl, by omega, by omega⟩
  rw [if_neg (by omega)]
  by_cases hpair : n / 4096 = 0xD
  · rw [if_pos (by omega), hpair]
    exact ⟨0x80, 0x9F, rfl, by omega, by omega⟩
  rw [if_neg (by omega), if_pos (by omega), Nat.add_sub_cancel_left]
  exact ⟨0x80, 0xBF, rfl, by omega, by omega⟩

/-- What the first of four bytes announces; the second one may not make the form overlong, nor the
character too great. -/
theorem first_four {n : Nat} (hlow : 0x10000 ≤ n) (hhigh : n < 0x110000) :
    ∃ low high, first (UInt8.ofNat (0xF0 + n / 262144))
        = some (.inr ⟨[UInt8.ofNat (0xF0 + n / 262144)], n / 64 / 64 / 64, 2, low, high⟩) ∧
      low ≤ 0x80 + n / 4096 % 64 ∧ 0x80 + n / 4096 % 64 ≤ high := by
  have hlead := toNat_ofNat_of_lt (by omega : 0xF0 + n / 262144 < 256)
  simp only [first, hlead, (by omega : n / 64 / 64 / 64 = n / 262144)]
  rw [if_neg (by omega), if_neg (by omega), if_neg (by omega), if_neg (by omega),
    if_neg (by omega), if_neg (by omega)]
  by_cases hleast : n / 262144 = 0
  · rw [if_pos (by omega), hleast]
    exact ⟨0x90, 0xBF, rfl, by omega, by omega⟩
  rw [if_neg (by omega)]
  by_cases hgreatest : n / 262144 = 4
  · rw [if_neg (by omega), if_pos (by omega), hgreatest]
    exact ⟨0x80, 0x8F, rfl, by omega, by omega⟩
  rw [if_pos (by omega), Nat.add_sub_cancel_left]
  exact ⟨0x80, 0xBF, rfl, by omega, by omega⟩

/-! ## Characters and texts -/

/-- A character is decoded from its bytes, whatever bytes follow them. -/
theorem decodeFrom_encodeChar (position : Nat) (c : Char) (rest : List UInt8) :
    ∃ position', decodeFrom position none (encodeChar c ++ rest)
      = (c :: ·) <$> decodeFrom position' none rest := by
  have hvalid : c.toNat < 0xD800 ∨ 0xDFFF < c.toNat ∧ c.toNat < 0x110000 := c.valid
  have hchar : Char.ofNat c.toNat = c := Char.ofNat_toNat c
  unfold encodeChar
  generalize c.toNat = n at hvalid hchar
  subst hchar
  dsimp only
  split
  · next hone =>
    have hfirst : first (UInt8.ofNat n) = some (.inl (Char.ofNat n)) := by
      simp only [first, toNat_ofNat_of_lt (by omega : n < 256), if_pos hone]
    exact ⟨_, by simp only [List.cons_append, List.nil_append, decodeFrom, hfirst]; rfl⟩
  split
  · next hone htwo =>
    have hfirst := first_two (by omega) htwo
    exact ⟨_, by
      simp only [List.cons_append, List.nil_append, decodeFrom, hfirst, next_tail_last]; rfl⟩
  split
  · next hone htwo hthree =>
    obtain ⟨low, high, hfirst, hlow, hhigh⟩ := first_three (by omega) hthree (by omega)
    exact ⟨_, by
      simp only [List.cons_append, List.nil_append, decodeFrom, hfirst,
        next_tail_further _ (n / 64) 0 hlow hhigh, next_tail_last]
      rfl⟩
  · next hone htwo hthree =>
    obtain ⟨low, high, hfirst, hlow, hhigh⟩ := first_four (by omega : 0x10000 ≤ n) (by omega)
    rw [(by omega : n / 4096 = n / 64 / 64)] at hlow hhigh ⊢
    have hthird : 0x80 ≤ 0x80 + n / 64 % 64 ∧ 0x80 + n / 64 % 64 ≤ 0xBF := by omega
    exact ⟨_, by
      simp only [List.cons_append, List.nil_append, decodeFrom, hfirst,
        next_tail_further _ (n / 64 / 64) 1 hlow hhigh,
        next_tail_further _ (n / 64) 0 hthird.1 hthird.2, next_tail_last]
      rfl⟩

/-- The bytes of a text are decoded to the text. -/
theorem decode_encode (text : Text) : decode (encode text) = .ok text := by
  have hfrom : ∀ position, decodeFrom position none (encode text) = .ok text := by
    induction text with
    | nil => exact fun _ => rfl
    | cons c text ih =>
        intro position
        rw [encode, List.flatMap_cons]
        obtain ⟨position', hchar⟩ := decodeFrom_encodeChar position c (text.flatMap encodeChar)
        rw [hchar, ← encode, ih]
        rfl
  exact hfrom 0

/-! ## Parts of characters -/

/-- The last continuation bytes of a character, so many of them. -/
def tails : Nat → Nat → List UInt8
  | 0, _ => []
  | places + 1, n => tail (n / 64 ^ places) :: tails places n

/-- The bytes of a character with a number. -/
theorem encodeChar_ofNat {n : Nat} (h : n.isValidChar) :
    encodeChar (Char.ofNat n) =
      if n < 0x80 then [UInt8.ofNat n]
      else if n < 0x800 then UInt8.ofNat (0xC0 + n / 64) :: tails 1 n
      else if n < 0x10000 then UInt8.ofNat (0xE0 + n / 4096) :: tails 2 n
      else UInt8.ofNat (0xF0 + n / 262144) :: tails 3 n := by
  have hnumber : (Char.ofNat n).toNat = n := by rw [Char.toNat_ofNat, if_pos h]
  simp only [encodeChar, hnumber, tails, pow_zero, Nat.div_one, pow_one]
  rfl

/-- The bytes of a part of a character are the first ones of each character that may come of it. -/
structure Pending.IsPart (p : Pending) : Prop where
  low : 0x80 ≤ p.low
  high : p.high ≤ 0xBF
  completes : ∀ n, n / 64 ^ (p.owed + 1) = p.bits → p.low ≤ 0x80 + n / 64 ^ p.owed % 64 →
    0x80 + n / 64 ^ p.owed % 64 ≤ p.high →
      n.isValidChar ∧ encodeChar (Char.ofNat n) = p.seen.reverse ++ tails (p.owed + 1) n

section First

variable {b : UInt8}

/-- The first of two bytes is a part. -/
theorem isPart_two (hleast : 0xC2 ≤ b.toNat) (hgreatest : b.toNat < 0xE0) :
    Pending.IsPart ⟨[b], b.toNat - 0xC0, 0, 0x80, 0xBF⟩ := by
  refine ⟨le_rfl, le_rfl, fun n hn hlow hhigh => ?_⟩
  dsimp only at hn hlow hhigh ⊢
  have hlead : UInt8.ofNat (0xC0 + n / 64) = b := by
    rw [(by omega : 0xC0 + n / 64 = b.toNat), UInt8.ofNat_toNat]
  have hvalid : n.isValidChar := Or.inl (by omega)
  rw [encodeChar_ofNat hvalid, if_neg (by omega), if_pos (by omega), hlead]
  exact ⟨hvalid, rfl⟩

/-- The first of three bytes is a part if the second one may neither make the form overlong nor the
character a half of a pair. -/
theorem isPart_three (low high : Nat) (hleast : 0xE0 ≤ b.toNat) (hgreatest : b.toNat < 0xF0)
    (hlow : 0x80 ≤ low) (hhigh : high ≤ 0xBF) (hlong : b.toNat = 0xE0 → 0xA0 ≤ low)
    (hhalf : b.toNat = 0xED → high ≤ 0x9F) :
    Pending.IsPart ⟨[b], b.toNat - 0xE0, 1, low, high⟩ := by
  refine ⟨hlow, hhigh, fun n hn hlow' hhigh' => ?_⟩
  dsimp only at hn hlow' hhigh' ⊢
  have hlead : UInt8.ofNat (0xE0 + n / 4096) = b := by
    rw [(by omega : 0xE0 + n / 4096 = b.toNat), UInt8.ofNat_toNat]
  have hvalid : n.isValidChar := by
    rcases Nat.lt_or_ge n 0xD800 with h | h
    · exact Or.inl h
    · exact Or.inr ⟨by omega, by omega⟩
  rw [encodeChar_ofNat hvalid, if_neg (by omega), if_neg (by omega), if_pos (by omega), hlead]
  exact ⟨hvalid, rfl⟩

/-- The first of four bytes is a part if the second one may neither make the form overlong nor the
character too great. -/
theorem isPart_four (low high : Nat) (hleast : 0xF0 ≤ b.toNat) (hgreatest : b.toNat < 0xF5)
    (hlow : 0x80 ≤ low) (hhigh : high ≤ 0xBF) (hlong : b.toNat = 0xF0 → 0x90 ≤ low)
    (hgreat : b.toNat = 0xF4 → high ≤ 0x8F) :
    Pending.IsPart ⟨[b], b.toNat - 0xF0, 2, low, high⟩ := by
  refine ⟨hlow, hhigh, fun n hn hlow' hhigh' => ?_⟩
  dsimp only at hn hlow' hhigh' ⊢
  have hlead : UInt8.ofNat (0xF0 + n / 262144) = b := by
    rw [(by omega : 0xF0 + n / 262144 = b.toNat), UInt8.ofNat_toNat]
  have hvalid : n.isValidChar := Or.inr ⟨by omega, by omega⟩
  rw [encodeChar_ofNat hvalid, if_neg (by omega), if_neg (by omega), if_neg (by omega), hlead]
  exact ⟨hvalid, rfl⟩

/-- What a first byte announces is a character with this byte alone, or a part of one. -/
theorem first_cases {found : Char ⊕ Pending} (h : first b = some found) :
    (∃ c, found = .inl c ∧ encodeChar c = [b]) ∨
      ∃ p : Pending, found = .inr p ∧ p.IsPart ∧ p.seen = [b] := by
  have hb : UInt8.ofNat b.toNat = b := UInt8.ofNat_toNat
  unfold first at h
  dsimp only at h
  split at h
  · next hone =>
    obtain rfl := Option.some.inj h
    refine Or.inl ⟨_, rfl, ?_⟩
    rw [encodeChar_ofNat (Or.inl (by omega)), if_pos hone, hb]
  right
  split at h
  · cases h
  split at h
  · obtain rfl := Option.some.inj h
    exact ⟨_, rfl, isPart_two (by omega) (by omega), rfl⟩
  split at h
  · next hlead =>
    obtain rfl := Option.some.inj h
    have hpart := isPart_three (b := b) 0xA0 0xBF (by omega) (by omega)
      (by omega) le_rfl (fun _ => le_rfl) (by omega)
    rw [hlead] at hpart
    exact ⟨_, rfl, hpart, rfl⟩
  split at h
  · next hlead =>
    obtain rfl := Option.some.inj h
    have hpart := isPart_three (b := b) 0x80 0x9F (by omega) (by omega)
      le_rfl (by omega) (by omega) (fun _ => le_rfl)
    rw [hlead] at hpart
    exact ⟨_, rfl, hpart, rfl⟩
  split at h
  · obtain rfl := Option.some.inj h
    exact ⟨_, rfl, isPart_three _ _ (by omega) (by omega) le_rfl le_rfl (by omega) (by omega), rfl⟩
  split at h
  · next hlead =>
    obtain rfl := Option.some.inj h
    have hpart := isPart_four (b := b) 0x90 0xBF (by omega) (by omega)
      (by omega) le_rfl (fun _ => le_rfl) (by omega)
    rw [hlead] at hpart
    exact ⟨_, rfl, hpart, rfl⟩
  split at h
  · obtain rfl := Option.some.inj h
    exact ⟨_, rfl, isPart_four _ _ (by omega) (by omega) le_rfl le_rfl (by omega) (by omega), rfl⟩
  split at h
  · next hlead =>
    obtain rfl := Option.some.inj h
    have hpart := isPart_four (b := b) 0x80 0x8F (by omega) (by omega)
      le_rfl (by omega) (by omega) (fun _ => le_rfl)
    rw [hlead] at hpart
    exact ⟨_, rfl, hpart, rfl⟩
  · cases h

end First

/-- A byte that may follow a part completes a character, or makes a longer part. -/
theorem Pending.IsPart.next_cases {p : Pending} (hp : p.IsPart) {b : UInt8}
    {found : Char ⊕ Pending} (h : p.next b = some found) :
    (∃ c, found = .inl c ∧ encodeChar c = p.seen.reverse ++ [b]) ∨
      ∃ q : Pending, found = .inr q ∧ q.IsPart ∧ q.seen = b :: p.seen := by
  obtain ⟨hlow, hhigh, hcompletes⟩ := hp
  unfold Pending.next at h
  split at h
  · next hrange =>
    obtain ⟨hleast, hgreatest⟩ : p.low ≤ b.toNat ∧ b.toNat ≤ p.high := by simpa using hrange
    have hbyte : ∀ n, n % 64 = b.toNat - 0x80 → tail n = b := by
      intro n hn
      rw [tail, hn, (by omega : 0x80 + (b.toNat - 0x80) = b.toNat), UInt8.ofNat_toNat]
    dsimp only at h
    split at h
    · next howed =>
      obtain rfl := Option.some.inj h
      rw [howed] at hcompletes
      obtain ⟨-, hbytes⟩ := hcompletes (p.bits * 64 + (b.toNat - 0x80)) (by omega) (by omega)
        (by omega)
      refine Or.inl ⟨_, rfl, ?_⟩
      rw [hbytes, tails, tails, hbyte _ (by omega)]
    · next owed howed =>
      obtain rfl := Option.some.inj h
      refine Or.inr ⟨_, rfl, ⟨le_rfl, le_rfl, fun n hn _ _ => ?_⟩, rfl⟩
      rw [howed, Nat.succ_eq_add_one] at hcompletes
      dsimp only at hn
      have hbits : n / 64 ^ (owed + 1) % 64 = b.toNat - 0x80 := by omega
      have hrest : n / 64 ^ (owed + 1 + 1) = p.bits := by
        rw [pow_succ, ← Nat.div_div_eq_div_mul]
        omega
      obtain ⟨hvalid, hbytes⟩ := hcompletes n hrest (by omega) (by omega)
      refine ⟨hvalid, ?_⟩
      rw [hbytes, tails, hbyte _ hbits, List.reverse_cons, List.append_assoc]
      rfl
  · cases h

/-- Bytes that are decoded after a part of a character encode the text together with it. -/
theorem encode_of_decodeFrom {bytes : List UInt8} {position : Nat} {pending? : Option Pending}
    {text : Text} (hpart : ∀ p, pending? = some p → p.IsPart)
    (h : decodeFrom position pending? bytes = .ok text) :
    encode text = (pending?.map fun p => p.seen.reverse).getD [] ++ bytes := by
  induction bytes generalizing position pending? text with
  | nil =>
      cases pending? with
      | none =>
          obtain rfl := Except.ok.inj h
          rfl
      | some p => cases h
  | cons b bytes ih =>
      -- The byte after a part, or after none: it completes a character, or more are to follow.
      have hchar : ∀ {c : Char} {front : List UInt8}, encodeChar c = front ++ [b] →
          (c :: ·) <$> decodeFrom (position + 1) none bytes = .ok text →
            encode text = front ++ b :: bytes := by
        intro c front hc h
        cases hrest : decodeFrom (position + 1) none bytes with
        | error fault =>
            rw [hrest] at h
            cases h
        | ok rest =>
            rw [hrest] at h
            obtain rfl := Except.ok.inj h
            have hbytes := ih (fun _ hnone => absurd hnone (Option.some_ne_none _).symm) hrest
            rw [encode, List.flatMap_cons, hc, ← encode, hbytes, List.append_assoc]
            rfl
      have hlonger : ∀ {p : Pending} {front : List UInt8}, p.IsPart →
          p.seen.reverse = front ++ [b] → decodeFrom (position + 1) (some p) bytes = .ok text →
            encode text = front ++ b :: bytes := by
        intro p front hp hseen h
        have hbytes := ih (fun _ hsome => Option.some.inj hsome ▸ hp) h
        rw [hbytes, Option.map_some, Option.getD_some, hseen, List.append_assoc]
        rfl
      cases pending? with
      | none =>
          rw [decodeFrom] at h
          cases hfirst : first b with
          | none =>
              rw [hfirst] at h
              cases h
          | some found =>
              rw [hfirst] at h
              rcases first_cases hfirst with ⟨c, rfl, hc⟩ | ⟨p, rfl, hp, hseen⟩
              · exact hchar hc h
              · exact hlonger hp (congrArg List.reverse hseen) h
      | some p =>
          rw [decodeFrom] at h
          cases hnext : p.next b with
          | none =>
              rw [hnext] at h
              cases h
          | some found =>
              rw [hnext] at h
              rcases (hpart p rfl).next_cases hnext with ⟨c, rfl, hc⟩ | ⟨q, rfl, hq, hseen⟩
              · exact hchar hc h
              · refine hlonger hq ?_ h
                rw [hseen, List.reverse_cons]
                rfl

/-- Only the bytes of a text are decoded to it. -/
theorem encode_of_decode {bytes : List UInt8} {text : Text} (h : decode bytes = .ok text) :
    encode text = bytes :=
  encode_of_decodeFrom (fun _ hnone => absurd hnone (Option.some_ne_none _).symm) h

/-- Different texts have different bytes. -/
theorem encode_injective : Function.Injective encode :=
  fun text text' h => Except.ok.inj ((decode_encode text).symm.trans (h ▸ decode_encode text'))

end KeyOrder.Utf8
