import Mathlib.Algebra.Order.Field.Power
import Mathlib.Algebra.Order.Ring.Abs
import Mathlib.Tactic.Linarith
import Mathlib.Tactic.Positivity
import Mathlib.Tactic.Ring

/-! # Binary numbers and their neighbours

A binary number of `p + 1` bits is `m * 2 ^ e`, with the leading bit of `m` set unless `e` is the
smallest exponent (`Normal`). A number that is close to it (`Near`) lies in the same binade, or just
below the binade that it opens, so rounding to `p + 1` bits gives it back (`Near.exponent`). A decimal
number with enough digits is close (`near_of_decimal`). Everything is over an ordered field. -/

namespace RocksdbService.Rounding

variable {K : Type*} [Field K] [LinearOrder K] [IsStrictOrderedRing K]

/-- The leading bit is set, unless the exponent is the smallest. -/
structure Normal (p : ℕ) (emin : ℤ) (m : ℕ) (e : ℤ) : Prop where
  lt : m < 2 ^ (p + 1)
  min_le : emin ≤ e
  leading : 2 ^ p ≤ m ∨ e = emin

/-- `w` is nearer to `m * 2 ^ e` than half the way to the next number; below a power of two, these are
closer. -/
structure Near (p m : ℕ) (e : ℤ) (w : K) : Prop where
  half : |w - m * 2 ^ e| < 2 ^ e / 2
  quarter : m = 2 ^ p → |w - m * 2 ^ e| < 2 ^ e / 4

/-- The binade of a number. -/
def Binade (p : ℕ) (e : ℤ) (w : K) : Prop := 2 ^ p * 2 ^ e ≤ w ∧ w < 2 ^ (p + 1) * 2 ^ e

theorem two_zpow_pos (e : ℤ) : (0 : K) < 2 ^ e := zpow_pos two_pos e

theorem two_zpow_succ (e : ℤ) : (2 : K) ^ (e + 1) = 2 * 2 ^ e := by
  rw [zpow_add₀ two_ne_zero, zpow_one, mul_comm]

theorem le_of_two_pow_mul_lt {p : ℕ} {a b : ℤ} (h : (2 : K) ^ p * 2 ^ a < 2 ^ (p + 1) * 2 ^ b) :
    a ≤ b := by
  have hp : (0 : K) < 2 ^ p := pow_pos two_pos p
  have hlt : (2 : K) ^ a < 2 ^ (b + 1) := by
    rw [two_zpow_succ]
    refine lt_of_mul_lt_mul_left (a := (2 : K) ^ p) ?_ hp.le
    calc (2 : K) ^ p * 2 ^ a < 2 ^ (p + 1) * 2 ^ b := h
      _ = 2 ^ p * (2 * 2 ^ b) := by rw [pow_succ]; ring
  exact Int.lt_add_one_iff.mp ((zpow_lt_zpow_iff_right₀ one_lt_two).mp hlt)

/-- A number is in one binade only. -/
theorem Binade.unique {p : ℕ} {a b : ℤ} {w : K} (ha : Binade p a w) (hb : Binade p b w) : a = b :=
  le_antisymm (le_of_two_pow_mul_lt (ha.1.trans_lt hb.2)) (le_of_two_pow_mul_lt (hb.1.trans_lt ha.2))

/-- Where rounding a number that is close to a binary number looks, and what it finds there. -/
theorem Near.exponent {p m : ℕ} {emin e e' : ℤ} {w : K} (hn : Normal p emin m e)
    (hw : Near p m e w) (he' : Binade p e' w) :
    max e' emin = e ∧ |w / 2 ^ e - m| < 1 / 2 ∨
      max e' emin = e - 1 ∧ m = 2 ^ p ∧ |w / 2 ^ (e - 1) - 2 ^ (p + 1)| < 1 / 2 := by
  have hpos : (0 : K) < 2 ^ e := two_zpow_pos e
  have hhalf : |w / 2 ^ e - m| < 1 / 2 := by
    have hdiv : w / 2 ^ e - m = (w - m * 2 ^ e) / 2 ^ e := by
      rw [sub_div, mul_div_cancel_right₀ _ hpos.ne']
    rw [hdiv, abs_div, abs_of_pos hpos, div_lt_iff₀ hpos]
    linarith [hw.half]
  obtain ⟨hlower, hupper⟩ := abs_lt.mp hw.half
  by_cases hbelow : 2 ^ p * 2 ^ e ≤ w
  · -- the binade of the number itself
    left
    have hm : (m : K) + 1 ≤ 2 ^ (p + 1) := by exact_mod_cast hn.lt
    have hlt : w < 2 ^ (p + 1) * 2 ^ e := by
      calc w < ((m : K) + 1) * 2 ^ e := by linarith
        _ ≤ 2 ^ (p + 1) * 2 ^ e := mul_le_mul_of_nonneg_right hm hpos.le
    rw [he'.unique ⟨hbelow, hlt⟩]
    exact ⟨max_eq_left hn.min_le, hhalf⟩
  have hlt := not_le.mp hbelow
  have hle : e' ≤ e - 1 := by
    refine le_of_two_pow_mul_lt (p := p) (he'.1.trans_lt (hlt.trans_le ?_))
    have := two_zpow_succ (K := K) (e - 1)
    rw [sub_add_cancel] at this
    rw [this, pow_succ]
    exact le_of_eq (by ring)
  by_cases hmin : e = emin
  · left
    exact ⟨by rw [← hmin]; exact max_eq_right (by omega), hhalf⟩
  · -- the binade below the one that a power of two opens
    right
    have hm : m = 2 ^ p := by
      refine le_antisymm ?_ (hn.leading.resolve_right hmin)
      have hlt' : (m : K) < 2 ^ p + 1 := by
        refine lt_of_mul_lt_mul_right (a := (2 : K) ^ e) ?_ hpos.le
        linarith
      exact Nat.lt_succ_iff.mp (by exact_mod_cast hlt')
    have hquarter := (abs_lt.mp (hw.quarter hm)).1
    have hsucc := two_zpow_succ (K := K) (e - 1)
    rw [sub_add_cancel] at hsucc
    have hpos' : (0 : K) < 2 ^ (e - 1) := two_zpow_pos (e - 1)
    have hone : (1 : K) ≤ 2 ^ p := one_le_pow₀ one_le_two
    have hcast : (m : K) = 2 ^ p := by rw [hm]; push_cast; rfl
    have hbinade : Binade p (e - 1) w := by
      refine ⟨?_, ?_⟩
      · have := mul_le_mul_of_nonneg_right hone hpos'.le
        rw [hcast, hsucc] at hquarter
        linarith
      · rw [pow_succ, mul_assoc, ← hsucc]
        exact hlt
    refine ⟨?_, hm, ?_⟩
    · rw [he'.unique hbinade]
      exact max_eq_left (by have := hn.min_le; omega)
    · have hdiv : w / 2 ^ (e - 1) - 2 ^ (p + 1) = (w - m * 2 ^ e) / 2 ^ (e - 1) := by
        rw [hcast, hsucc, sub_div, ← mul_assoc, mul_div_cancel_right₀ _ hpos'.ne', pow_succ]
      rw [hdiv, abs_div, abs_of_pos hpos', div_lt_iff₀ hpos']
      linarith [hw.quarter hm]

/-- A decimal number with `k + 1` digits is close to the binary number that it was made of, when
`k` digits tell more numbers apart than `p + 1` bits. -/
theorem near_of_decimal {p k m : ℕ} {e x : ℤ} {w : K} (hm : m < 2 ^ (p + 1))
    (hk : 2 ^ (p + 1) < 10 ^ k) (hx : (10 : K) ^ x ≤ m * 2 ^ e)
    (hw : |w - m * 2 ^ e| ≤ 10 ^ (x - k) / 2) : Near p m e w := by
  have hpos : (0 : K) < 2 ^ e := two_zpow_pos e
  have hten : (0 : K) < 10 ^ k := pow_pos (by norm_num) k
  have hk' : (2 : K) ^ (p + 1) < 10 ^ k := by exact_mod_cast hk
  -- the distance of neighbouring decimals, for a bound on the number
  have hgap : ∀ c : K, (m : K) ≤ c → (10 : K) ^ (x - k) ≤ c / 10 ^ k * 2 ^ e := by
    intro c hc
    rw [zpow_sub₀ (by norm_num), zpow_natCast, div_mul_eq_mul_div]
    exact div_le_div_of_nonneg_right (hx.trans (mul_le_mul_of_nonneg_right hc hpos.le)) hten.le
  constructor
  · have hle := hgap (2 ^ (p + 1)) (by exact_mod_cast hm.le)
    have hlt : (2 : K) ^ (p + 1) / 10 ^ k * 2 ^ e < 1 * 2 ^ e :=
      mul_lt_mul_of_pos_right ((div_lt_one hten).mpr hk') hpos
    linarith
  · intro hm
    have hle := hgap (2 ^ p) (by rw [hm]; push_cast; exact le_refl _)
    have hlt : (2 : K) ^ p / 10 ^ k * 2 ^ e < 1 / 2 * 2 ^ e := by
      refine mul_lt_mul_of_pos_right ?_ hpos
      rw [div_lt_iff₀ hten]
      rw [pow_succ] at hk'
      linarith
    linarith

end RocksdbService.Rounding
