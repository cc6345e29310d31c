import Mathlib.Data.List.Lex
import Mathlib.Data.String.Basic
import SymbolMap.Text.Utf8

/-! UTF-8 keeps the order of characters: texts compare by their octets as they
do by their characters. The octets of two characters differ before either of
them ends, so what follows them does not matter. -/
namespace SymbolMap.Text

/-- Octets come before others, decided at a place that both have. -/
def Precedes : List UInt8 → List UInt8 → Prop
  | x :: xs, y :: ys => x < y ∨ x = y ∧ Precedes xs ys
  | _, _ => False

section Precedes

variable {xs ys : List UInt8}

theorem Precedes.append (h : Precedes xs ys) (after after' : List UInt8) :
    Precedes (xs ++ after) (ys ++ after') := by
  induction xs generalizing ys with
  | nil => exact False.elim h
  | cons x xs ih =>
      cases ys with
      | nil => exact False.elim h
      | cons y ys => exact h.imp_right fun hRest => ⟨hRest.1, ih hRest.2⟩

theorem Precedes.append_left (first : List UInt8) (h : Precedes xs ys) :
    Precedes (first ++ xs) (first ++ ys) := by
  induction first with
  | nil => exact h
  | cons x first ih => exact Or.inr ⟨rfl, ih⟩

theorem Precedes.lt (h : Precedes xs ys) : xs < ys := by
  induction xs generalizing ys with
  | nil => exact False.elim h
  | cons x xs ih =>
      cases ys with
      | nil => exact False.elim h
      | cons y ys =>
          rw [List.cons_lt_cons_iff]
          exact h.imp_right fun hRest => ⟨hRest.1, ih hRest.2⟩

theorem precedes_of_lt {low high : Nat} (h : low < high) (hHigh : high < 0x100)
    (after after' : List UInt8) :
    Precedes (low.toUInt8 :: after) (high.toUInt8 :: after') := by
  left
  rw [UInt8.lt_iff_toNat_lt]
  simp only [Nat.toUInt8, UInt8.toNat_ofNat']
  omega

end Precedes

section Characters

/-- A number in a lead octet, above `base`, and `more` octets of six bits
each. -/
def octets (base : Nat) : Nat → Nat → List UInt8
  | 0, n => [(base + n).toUInt8]
  | more + 1, n => octets base more (n / 0x40) ++ [(0x80 + n % 0x40).toUInt8]

/-- The lead octet holds the uppermost bits. -/
theorem octets_eq_cons (base more n : Nat) :
    ∃ rest, octets base more n = (base + n / 0x40 ^ more).toUInt8 :: rest := by
  induction more generalizing n with
  | zero => exact ⟨[], by simp [octets]⟩
  | succ more ih =>
      obtain ⟨rest, hRest⟩ := ih (n / 0x40)
      refine ⟨rest ++ [(0x80 + n % 0x40).toUInt8], ?_⟩
      rw [octets, hRest, List.cons_append, Nat.div_div_eq_div_mul, ← Nat.pow_succ']

/-- Among numbers of one length, octets keep the order. -/
theorem octets_precedes {base more low high : Nat} (h : low < high)
    (hLead : base + high / 0x40 ^ more < 0x100) :
    Precedes (octets base more low) (octets base more high) := by
  induction more generalizing low high with
  | zero => exact precedes_of_lt (by omega) (by simpa using hLead) [] []
  | succ more ih =>
      rw [octets, octets]
      rcases Nat.lt_or_ge (low / 0x40) (high / 0x40) with hUpper | hUpper
      · refine (ih hUpper ?_).append _ _
        rwa [Nat.div_div_eq_div_mul, ← Nat.pow_succ']
      · -- the same upper bits: the last octet decides
        have hSame : low / 0x40 = high / 0x40 := by omega
        rw [hSame]
        exact Precedes.append_left _ (precedes_of_lt (by omega) (by omega) [] [])

/-- A number of fewer octets comes first by its lead octet. -/
theorem octets_precedes_of_lead {base base' more more' low high : Nat}
    (hLess : base + low / 0x40 ^ more < base' + high / 0x40 ^ more')
    (hLead : base' + high / 0x40 ^ more' < 0x100) :
    Precedes (octets base more low) (octets base' more' high) := by
  obtain ⟨rest, hLow⟩ := octets_eq_cons base more low
  obtain ⟨rest', hHigh⟩ := octets_eq_cons base' more' high
  rw [hLow, hHigh]
  exact precedes_of_lt hLess hLead _ _

theorem encodeChar_eq_octets (c : Char) :
    encodeChar c =
      if c.toNat < 0x80 then octets 0 0 c.toNat
      else if c.toNat < 0x800 then octets 0xC0 1 c.toNat
      else if c.toNat < 0x10000 then octets 0xE0 2 c.toNat
      else octets 0xF0 3 c.toNat := by
  simp [encodeChar, octets, Nat.div_div_eq_div_mul]

theorem toNat_lt_of_char (c : Char) : c.toNat < 0x110000 := by
  have hValid := c.valid
  simp only [UInt32.isValidChar, Nat.isValidChar, Char.toNat_val] at hValid
  omega

/-- The octets of a smaller character precede those of a larger one. -/
theorem encodeChar_precedes {c d : Char} (h : c < d) :
    Precedes (encodeChar c) (encodeChar d) := by
  have hLess : c.toNat < d.toNat := h
  have hBound := toNat_lt_of_char d
  rw [encodeChar_eq_octets, encodeChar_eq_octets]
  generalize c.toNat = n at *
  generalize d.toNat = m at *
  split_ifs
  -- between different lengths the lead octets decide, within one length all octets
  all_goals try exact octets_precedes_of_lead (by omega) (by omega)
  all_goals exact octets_precedes hLess (by omega)

end Characters

section Texts

theorem encodeChar_ne_nil (c : Char) : encodeChar c ≠ [] := by
  simp only [encodeChar]
  split_ifs <;> simp

theorem encode_cons (c : Char) (s : List Char) : encode (c :: s) = encodeChar c ++ encode s :=
  List.flatMap_cons

theorem encode_lt_of_lt {a b : List Char} (h : a < b) : encode a < encode b := by
  induction h with
  | @nil c s =>
      obtain ⟨octet, rest, hChar⟩ := List.exists_cons_of_ne_nil (encodeChar_ne_nil c)
      rw [encode_cons, hChar]
      exact List.nil_lt_cons _ _
  | cons _ ih =>
      rw [encode_cons, encode_cons]
      exact List.append_left_lt ih
  | rel hLess =>
      rw [encode_cons, encode_cons]
      exact ((encodeChar_precedes hLess).append _ _).lt

/-- Texts compare by their octets as they do by their characters. -/
theorem lt_iff_encode_lt (a b : String) : a < b ↔ encode a.toList < encode b.toList := by
  rw [String.lt_iff_toList_lt]
  refine ⟨encode_lt_of_lt, fun h => ?_⟩
  rcases lt_trichotomy a.toList b.toList with hLess | hSame | hLess
  · exact hLess
  · rw [hSame] at h
    exact absurd h (List.lt_irrefl _)
  · exact absurd h (List.lt_asymm (encode_lt_of_lt hLess))

theorem le_iff_encode_le (a b : String) : a ≤ b ↔ encode a.toList ≤ encode b.toList := by
  rw [← not_lt, lt_iff_encode_lt, List.not_lt]

end Texts

end SymbolMap.Text
