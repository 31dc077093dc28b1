import Mathlib.Algebra.Order.Field.Basic
import Mathlib.Data.Rat.Cast.Order
import Mathlib.Tactic.FieldSimp
import Mathlib.Tactic.Ring
import WorkflowPlatform.Json

/-!
# What a number denotes

The rational number of a decimal, and the decimal of a natural number.
-/
namespace WorkflowPlatform

def JsNumber.value (n : JsNumber) : ℚ := n.mantissa * 10 ^ n.exponent

namespace JsValue

/-- The number of zeros at the end of the numeral. -/
def trailingZeros (n : ℕ) : ℕ := ((Nat.repr n).toList.reverse.takeWhile (· = '0')).length

theorem trailingZeros_of_mod_ne {n : ℕ} (h : n % 10 ≠ 0) : trailingZeros n = 0 := by
  have hlast : (Nat.repr n).toList.reverse.head? = some (n % 10).digitChar := by
    rw [Nat.toList_repr]
    by_cases hn : n < 10
    · rw [Nat.toDigits_of_lt_base hn, Nat.mod_eq_of_lt hn]
      rfl
    · rw [Nat.toDigits_of_base_le (by omega) (by omega)]
      simp
  have hdigit : ∀ d < 10, d ≠ 0 → d.digitChar ≠ '0' := by decide
  have hne : (n % 10).digitChar ≠ '0' := hdigit _ (Nat.mod_lt _ (by omega)) h
  unfold trailingZeros
  cases hl : (Nat.repr n).toList.reverse with
  | nil => rfl
  | cons c rest =>
      rw [hl, List.head?_cons, Option.some.injEq] at hlast
      rw [List.takeWhile_cons, hlast]
      simp [hne]

theorem trailingZeros_ten_mul {m : ℕ} (h : 0 < m) :
    trailingZeros (10 * m) = trailingZeros m + 1 := by
  have happend := Nat.toDigits_append_toDigits (b := 10) (n := m) (d := 0) (by omega) h (by omega)
  rw [Nat.add_zero, Nat.toDigits_zero] at happend
  unfold trailingZeros
  rw [Nat.toList_repr, Nat.toList_repr, ← happend]
  simp

/-- Dividing the zeros at the end off leaves a numeral without any. -/
theorem trailingZeros_spec {n : ℕ} (h : 0 < n) :
    10 ^ trailingZeros n * (n / 10 ^ trailingZeros n) = n ∧
      (n / 10 ^ trailingZeros n) % 10 ≠ 0 := by
  induction n using Nat.strong_induction_on with
  | _ n ih =>
      by_cases hmod : n % 10 = 0
      · obtain ⟨m, rfl⟩ := Nat.dvd_of_mod_eq_zero hmod
        have hm : 0 < m := by omega
        obtain ⟨hmul, hlast⟩ := ih m (by omega) hm
        have hdiv : 10 * m / 10 ^ (trailingZeros m + 1) = m / 10 ^ trailingZeros m := by
          rw [Nat.pow_succ, Nat.mul_comm _ 10, Nat.mul_div_mul_left _ _ (by omega)]
        rw [trailingZeros_ten_mul hm, hdiv, Nat.pow_succ]
        refine ⟨?_, hlast⟩
        calc 10 ^ trailingZeros m * 10 * (m / 10 ^ trailingZeros m)
            = 10 * (10 ^ trailingZeros m * (m / 10 ^ trailingZeros m)) := by ring
          _ = 10 * m := by rw [hmul]
      · simpa [trailingZeros_of_mod_ne hmod] using hmod

theorem natNumber_of_mod_eq {n : ℕ} (hmod : n % 10 = 0)
    (h : ((n / 10 ^ trailingZeros n : ℕ) : ℤ) % 10 ≠ 0) :
    natNumber n = ⟨(n / 10 ^ trailingZeros n : ℕ), trailingZeros n, .inl h⟩ := by
  have hnot : ¬ (n : ℤ) % 10 ≠ 0 := by omega
  unfold natNumber
  rw [dif_neg hnot]
  exact dif_pos h

theorem natNumber_value (n : ℕ) : (natNumber n).value = n := by
  by_cases hmod : n % 10 = 0
  · rcases Nat.eq_zero_or_pos n with hzero | hpos
    · subst hzero
      have h : (natNumber 0).mantissa = 0 := by decide
      rw [JsNumber.value, h]
      simp
    · obtain ⟨hmul, hlast⟩ := trailingZeros_spec hpos
      rw [natNumber_of_mod_eq hmod (by omega), JsNumber.value]
      simp only [Int.cast_natCast, zpow_natCast]
      exact_mod_cast (Nat.mul_comm _ _).trans hmul
  · have h : (n : ℤ) % 10 ≠ 0 := by omega
    unfold natNumber JsNumber.value
    rw [dif_pos h]
    simp

end JsValue

namespace JsNumber

/-- A number has one shortest decimal. -/
theorem value_le_exponent {n n' : JsNumber} (h : n.value = n'.value)
    (hle : n.exponent ≤ n'.exponent) : n = n' := by
  obtain ⟨k, hk⟩ := Int.eq_ofNat_of_zero_le (sub_nonneg.mpr hle)
  have hmantissa : n.mantissa = n'.mantissa * 10 ^ k := by
    have hexp : n'.exponent = k + n.exponent := by omega
    rw [value, value, hexp, zpow_add₀ (by norm_num), ← mul_assoc, zpow_natCast] at h
    have hne : (10 : ℚ) ^ n.exponent ≠ 0 := zpow_ne_zero _ (by norm_num)
    exact_mod_cast mul_right_cancel₀ hne h
  obtain ⟨m, e, hshort⟩ := n
  obtain ⟨m', e', hshort'⟩ := n'
  simp only at hmantissa hk hle
  cases k with
  | zero =>
      have hm : m = m' := by rw [hmantissa, pow_zero, mul_one]
      have he : e = e' := by omega
      subst hm he
      rfl
  | succ k =>
      -- A longer exponent would leave a zero at the end of the other mantissa.
      have hten : m % 10 = 0 := by
        rw [hmantissa, pow_succ, ← mul_assoc]
        exact Int.mul_emod_left _ _
      have hzero : m = 0 ∧ e = 0 := hshort.resolve_left (not_not_intro hten)
      have hm' : m' = 0 := by
        have hprod := hmantissa.symm.trans hzero.1
        rcases mul_eq_zero.mp hprod with h0 | h0
        · exact h0
        · exact absurd h0 (pow_ne_zero _ (by omega))
      have he' : e' = 0 := (hshort'.resolve_left (by omega)).2
      omega

theorem value_injective {n n' : JsNumber} (h : n.value = n'.value) : n = n' := by
  rcases Int.le_total n.exponent n'.exponent with hle | hle
  · exact value_le_exponent h hle
  · exact (value_le_exponent h.symm hle).symm

/-- The decimal of an integer. -/
def ofInt (z : ℤ) : JsNumber :=
  let n := JsValue.natNumber z.natAbs
  if 0 ≤ z then n
  else {
    mantissa := -n.mantissa
    exponent := n.exponent
    shortest := by
      have := n.shortest
      omega }

theorem natNumber_exponent (n : ℕ) : 0 ≤ (JsValue.natNumber n).exponent := by
  unfold JsValue.natNumber
  split
  · exact le_refl 0
  · dsimp only
    split
    · exact Int.natCast_nonneg _
    · exact le_refl 0

theorem ofInt_exponent (z : ℤ) : 0 ≤ (ofInt z).exponent := by
  simp only [ofInt]
  split <;> exact natNumber_exponent _

theorem ofInt_value (z : ℤ) : (ofInt z).value = z := by
  have hvalue := JsValue.natNumber_value z.natAbs
  simp only [ofInt]
  split
  · next hpos =>
      have habs : ((z.natAbs : ℕ) : ℤ) = z := Int.natAbs_of_nonneg hpos
      rw [hvalue, ← Int.cast_natCast, habs]
  · next hneg =>
      have habs : ((z.natAbs : ℕ) : ℤ) = -z := Int.ofNat_natAbs_of_nonpos (by omega)
      rw [← Int.cast_natCast, habs, Int.cast_neg, value] at hvalue
      simp only [value, Int.cast_neg, neg_mul, hvalue, neg_neg]

/-- The integer that a number without a fractional part denotes. -/
def toInt (n : JsNumber) : ℤ := n.mantissa * 10 ^ n.exponent.toNat

theorem toInt_value {n : JsNumber} (h : 0 ≤ n.exponent) : (n.toInt : ℚ) = n.value := by
  have hexp : ((n.exponent.toNat : ℕ) : ℤ) = n.exponent := Int.toNat_of_nonneg h
  rw [value, toInt, ← hexp, zpow_natCast]
  push_cast
  rfl

theorem ofInt_toInt {n : JsNumber} (h : 0 ≤ n.exponent) : ofInt n.toInt = n :=
  value_injective ((ofInt_value _).trans (toInt_value h))

theorem toInt_ofInt (z : ℤ) : (ofInt z).toInt = z := by
  have hvalue := (toInt_value (ofInt_exponent z)).trans (ofInt_value z)
  exact_mod_cast hvalue

end JsNumber
end WorkflowPlatform
