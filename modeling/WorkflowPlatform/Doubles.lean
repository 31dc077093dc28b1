import Mathlib.Data.Nat.Size
import Mathlib.Data.Rat.Floor
import Mathlib.Tactic.Linarith
import Mathlib.Tactic.Positivity
import Mathlib.Tactic.Ring

/-!
# Rounding to even, and integers as doubles

A double has 53 significant bits. `nearest` is the double of an integer: the nearest
one, and of two that are equally near the one with an even significand. It keeps
every integer up to 2^53 in absolute value, and the sign of all of them. The
exponent is not bounded here.
-/
namespace Doubles

/-- The nearest integer, of two that are equally near the even one. -/
def roundEven (q : ℚ) : ℤ :=
  let fraction := q - ⌊q⌋
  if fraction < 1 / 2 then ⌊q⌋
  else if 1 / 2 < fraction then ⌊q⌋ + 1
  else if ⌊q⌋ % 2 = 0 then ⌊q⌋
  else ⌊q⌋ + 1

theorem abs_roundEven_sub_le (q : ℚ) : |(roundEven q : ℚ) - q| ≤ 1 / 2 := by
  have hfloor : (⌊q⌋ : ℚ) ≤ q := Int.floor_le q
  have hnext : q < ⌊q⌋ + 1 := Int.lt_floor_add_one q
  rw [abs_le]
  unfold roundEven
  dsimp only
  split_ifs <;> push_cast <;> constructor <;> linarith

theorem floor_le_roundEven (q : ℚ) : ⌊q⌋ ≤ roundEven q := by
  unfold roundEven
  dsimp only
  split_ifs <;> omega

theorem roundEven_intCast (z : ℤ) : roundEven z = z := by
  unfold roundEven
  simp

theorem roundEven_nonpos {q : ℚ} (h : q ≤ 0) : roundEven q ≤ 0 := by
  have hnear := (abs_le.mp (abs_roundEven_sub_le q)).2
  have hlt : (roundEven q : ℚ) < 1 := by linarith
  have hlt' : roundEven q < 1 := by exact_mod_cast hlt
  omega

/-- How many bits of an integer a significand has no room for. -/
def dropped (n : ℤ) : ℕ := n.natAbs.size - 53

/-- The double of an integer. -/
def nearest (n : ℤ) : ℤ := roundEven (n / 2 ^ dropped n) * 2 ^ dropped n

theorem nearest_of_dvd {n : ℤ} (h : 2 ^ dropped n ∣ n) : nearest n = n := by
  obtain ⟨k, hk⟩ := h
  have hne : (2 : ℚ) ^ dropped n ≠ 0 := by positivity
  have hdiv : (n : ℚ) / 2 ^ dropped n = k := by
    rw [div_eq_iff hne, mul_comm]
    exact_mod_cast hk
  rw [nearest, hdiv, roundEven_intCast, mul_comm, ← hk]

/-- Nothing is rounded up to 2^53. -/
theorem nearest_of_abs_le {n : ℤ} (h : |n| ≤ 2 ^ 53) : nearest n = n := by
  have hle : n.natAbs ≤ 2 ^ 53 := by
    have := Int.natCast_natAbs n
    omega
  apply nearest_of_dvd
  rcases hle.lt_or_eq with hlt | heq
  · have hfits : n.natAbs.size ≤ 53 := Nat.size_le.mpr hlt
    have hnone : dropped n = 0 := Nat.sub_eq_zero_of_le hfits
    rw [hnone]
    exact one_dvd n
  · have hone : dropped n = 1 := by
      rw [dropped, heq, Nat.size_pow]
    rw [hone, ← Int.natAbs_dvd_natAbs, heq]
    decide

theorem nearest_nonpos_iff {n : ℤ} : nearest n ≤ 0 ↔ n ≤ 0 := by
  have hpow : (0 : ℚ) < 2 ^ dropped n := by positivity
  have hpow' : (0 : ℤ) < 2 ^ dropped n := by positivity
  constructor
  · intro h
    by_contra hpos
    rw [not_le] at hpos
    have hle : (2 ^ dropped n : ℕ) ≤ n.natAbs := by
      have hsize : 0 < n.natAbs.size := Nat.size_pos.mpr (by omega)
      exact Nat.lt_size.mp (show dropped n < n.natAbs.size by unfold dropped; omega)
    have hone : 1 ≤ ⌊(n : ℚ) / 2 ^ dropped n⌋ := by
      rw [Int.le_floor, Int.cast_one, one_le_div hpow]
      have hle' : (2 ^ dropped n : ℤ) ≤ n := calc
        (2 ^ dropped n : ℤ) = (2 ^ dropped n : ℕ) := by push_cast; rfl
        _ ≤ n.natAbs := Int.ofNat_le.mpr hle
        _ = n := Int.natAbs_of_nonneg hpos.le
      exact_mod_cast hle'
    have hround := hone.trans (floor_le_roundEven _)
    have hprod : 0 < nearest n := mul_pos (by omega) hpow'
    omega
  · intro h
    apply mul_nonpos_of_nonpos_of_nonneg _ hpow'.le
    apply roundEven_nonpos
    apply div_nonpos_of_nonpos_of_nonneg _ hpow.le
    exact_mod_cast h

/-- Above 2^53 every other integer is no double. -/
example : nearest (2 ^ 53 + 1) = 2 ^ 53 := by decide +kernel

end Doubles
