import Mathlib.Data.Nat.Notation
import Mathlib.Tactic.Common

/-!
# UTF-16

A text as 16-bit units: one unit for a character of the basic plane, a pair of
surrogates for any other. A sequence of units in which no surrogate stands alone is
the encoding of the text it is read as, and every text is read back from its
encoding. A text has at most as many characters as
units, and at most four bytes of UTF-8 for each character.
-/
namespace Utf16

def isHigh (u : UInt16) : Bool := 0xD800 ≤ u && u ≤ 0xDBFF

def isLow (u : UInt16) : Bool := 0xDC00 ≤ u && u ≤ 0xDFFF

/-- No surrogate stands alone. -/
def wellFormed : List UInt16 → Bool
  | [] => true
  | u :: rest =>
      if isHigh u then
        match rest with
        | v :: rest => isLow v && wellFormed rest
        | [] => false
      else !isLow u && wellFormed rest

def encodeChar (c : Char) : List UInt16 :=
  if c.toNat < 0x10000 then [UInt16.ofNat c.toNat]
  else [UInt16.ofNat (0xD800 + (c.toNat - 0x10000) / 0x400),
    UInt16.ofNat (0xDC00 + (c.toNat - 0x10000) % 0x400)]

def encode (text : List Char) : List UInt16 := text.flatMap encodeChar

/-- The character of a pair of surrogates. -/
def pair (high low : UInt16) : Char :=
  Char.ofNat (0x10000 + (high.toNat - 0xD800) * 0x400 + (low.toNat - 0xDC00))

/-- A surrogate that stands alone is read as U+FFFD. -/
def decode : List UInt16 → List Char
  | [] => []
  | u :: rest =>
      if isHigh u then
        match rest with
        | v :: rest => if isLow v then pair u v :: decode rest else '\uFFFD' :: decode (v :: rest)
        | [] => ['\uFFFD']
      else if isLow u then '\uFFFD' :: decode rest
      else Char.ofNat u.toNat :: decode rest

theorem isHigh_iff {u : UInt16} : isHigh u = true ↔ 0xD800 ≤ u.toNat ∧ u.toNat ≤ 0xDBFF := by
  simp [isHigh, UInt16.le_iff_toNat_le]

theorem isLow_iff {u : UInt16} : isLow u = true ↔ 0xDC00 ≤ u.toNat ∧ u.toNat ≤ 0xDFFF := by
  simp [isLow, UInt16.le_iff_toNat_le]

theorem toNat_ofNat {n : ℕ} (h : n < 0xD800 ∨ 0xDFFF < n ∧ n < 0x110000) :
    (Char.ofNat n).toNat = n := by
  have hvalid : n.isValidChar := by
    unfold Nat.isValidChar
    omega
  rw [Char.ofNat, dif_pos hvalid]
  rfl

theorem encode_cons (c : Char) (rest : List Char) :
    encode (c :: rest) = encodeChar c ++ encode rest := List.flatMap_cons

/-- A unit that is no surrogate is its character. -/
theorem encodeChar_unit {u : UInt16} (hhigh : isHigh u = false) (hlow : isLow u = false) :
    encodeChar (Char.ofNat u.toNat) = [u] := by
  rw [Bool.eq_false_iff, Ne, isHigh_iff] at hhigh
  rw [Bool.eq_false_iff, Ne, isLow_iff] at hlow
  have hlt := u.toNat_lt
  have hn : (Char.ofNat u.toNat).toNat = u.toNat := toNat_ofNat (by omega)
  rw [encodeChar, hn, if_pos (by omega)]
  simp

theorem encodeChar_pair {u v : UInt16} (hhigh : isHigh u = true) (hlow : isLow v = true) :
    encodeChar (pair u v) = [u, v] := by
  rw [isHigh_iff] at hhigh
  rw [isLow_iff] at hlow
  have hn : (pair u v).toNat = 0x10000 + (u.toNat - 0xD800) * 0x400 + (v.toNat - 0xDC00) :=
    toNat_ofNat (by omega)
  rw [encodeChar, hn, if_neg (by omega)]
  have hu : 0xD800 + (0x10000 + (u.toNat - 0xD800) * 0x400 + (v.toNat - 0xDC00) - 0x10000) / 0x400 =
      u.toNat := by omega
  have hv : 0xDC00 + (0x10000 + (u.toNat - 0xD800) * 0x400 + (v.toNat - 0xDC00) - 0x10000) % 0x400 =
      v.toNat := by omega
  rw [hu, hv]
  simp

/-- A well-formed sequence of units is the encoding of the text it is read as. -/
theorem encode_decode {units : List UInt16} (h : wellFormed units = true) :
    encode (decode units) = units := by
  fun_induction decode units with
  | case1 => rfl
  | case2 u hhigh v rest hlow ih =>
      simp only [wellFormed, hhigh, hlow, if_true, Bool.true_and] at h
      rw [encode_cons, encodeChar_pair hhigh hlow, ih h]
      rfl
  | case3 u hhigh v rest hlow _ =>
      simp [wellFormed, hhigh, hlow] at h
  | case4 u hhigh =>
      simp [wellFormed, hhigh] at h
  | case5 u rest hhigh hlow _ =>
      unfold wellFormed at h
      simp [hhigh, hlow] at h
  | case6 u rest hhigh hlow ih =>
      rw [Bool.not_eq_true] at hhigh hlow
      unfold wellFormed at h
      simp only [hhigh, hlow, Bool.false_eq_true, if_false, Bool.not_false, Bool.true_and] at h
      rw [encode_cons, encodeChar_unit hhigh hlow, ih h]
      rfl

theorem char_scalar (c : Char) : c.toNat < 0xD800 ∨ 0xDFFF < c.toNat ∧ c.toNat < 0x110000 := c.valid

/-- The units of a character: one that is no surrogate, or a pair that is read as it. -/
theorem encodeChar_cases (c : Char) :
    (∃ u, encodeChar c = [u] ∧ isHigh u = false ∧ isLow u = false ∧ Char.ofNat u.toNat = c) ∨
      ∃ u v, encodeChar c = [u, v] ∧ isHigh u = true ∧ isLow v = true ∧ pair u v = c := by
  have hscalar := char_scalar c
  unfold encodeChar
  split_ifs with hunit
  · left
    have hu : (UInt16.ofNat c.toNat).toNat = c.toNat := by
      rw [UInt16.toNat_ofNat']
      omega
    refine ⟨_, rfl, ?_, ?_, by rw [hu, Char.ofNat_toNat]⟩
    · rw [Bool.eq_false_iff, Ne, isHigh_iff, hu]
      omega
    · rw [Bool.eq_false_iff, Ne, isLow_iff, hu]
      omega
  · right
    have hu : (UInt16.ofNat (0xD800 + (c.toNat - 0x10000) / 0x400)).toNat =
        0xD800 + (c.toNat - 0x10000) / 0x400 := by
      rw [UInt16.toNat_ofNat']
      omega
    have hv : (UInt16.ofNat (0xDC00 + (c.toNat - 0x10000) % 0x400)).toNat =
        0xDC00 + (c.toNat - 0x10000) % 0x400 := by
      rw [UInt16.toNat_ofNat']
      omega
    refine ⟨_, _, rfl, ?_, ?_, ?_⟩
    · rw [isHigh_iff, hu]
      omega
    · rw [isLow_iff, hv]
      omega
    · have hn : 0x10000 + (0xD800 + (c.toNat - 0x10000) / 0x400 - 0xD800) * 0x400 +
          (0xDC00 + (c.toNat - 0x10000) % 0x400 - 0xDC00) = c.toNat := by omega
      rw [pair, hu, hv, hn, Char.ofNat_toNat]

theorem wellFormed_encode (text : List Char) : wellFormed (encode text) = true := by
  induction text with
  | nil => rfl
  | cons c rest ih =>
      rw [encode_cons]
      rcases encodeChar_cases c with ⟨u, hc, hhigh, hlow, -⟩ | ⟨u, v, hc, hhigh, hlow, -⟩
      · rw [hc, List.singleton_append]
        unfold wellFormed
        simp [hhigh, hlow, ih]
      · rw [hc]
        simp [wellFormed, hhigh, hlow, ih]

/-- A text is read back from its encoding. -/
theorem decode_encode (text : List Char) : decode (encode text) = text := by
  induction text with
  | nil => rfl
  | cons c rest ih =>
      rw [encode_cons]
      rcases encodeChar_cases c with ⟨u, hc, hhigh, hlow, hread⟩ | ⟨u, v, hc, hhigh, hlow, hread⟩
      · rw [hc, List.singleton_append]
        unfold decode
        simp [hhigh, hlow, ih, hread]
      · rw [hc]
        simp [decode, hhigh, hlow, ih, hread]

theorem length_le_encode (text : List Char) : text.length ≤ (encode text).length := by
  induction text with
  | nil => exact Nat.le_refl 0
  | cons c rest ih =>
      have hc : 1 ≤ (encodeChar c).length := by
        unfold encodeChar
        split_ifs
        · exact Nat.le_refl 1
        · exact Nat.le_succ 1
      rw [encode_cons, List.length_append, List.length_cons]
      omega

theorem utf8ByteSize_le (s : String) : s.utf8ByteSize ≤ 4 * s.length := by
  induction s using String.push_induction with
  | empty => exact Nat.le_refl 0
  | push s c ih =>
      have hc := c.utf8Size_le_four
      rw [String.utf8ByteSize_push, String.length_push]
      omega

end Utf16
