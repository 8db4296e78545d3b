import Mathlib.Algebra.Order.Field.Rat
import Mathlib.Tactic.FieldSimp
import Mathlib.Tactic.NormNum
import RocksdbService.Theory.Rounding
import RocksdbService.Verify.Tokens

/-! # How doubles are read and printed

`strtod` gives a double for every text that is closer to it than to its neighbours (`ofFraction_eq`).
Seventeen significant digits are always that close, so what the writer prints of a double is read as
the same double. What is read is one of the doubles there are (`ofFraction_representable`). -/

namespace RocksdbService.Double

open Json (isDigit)
open Rounding (Binade Near Normal)

/-! ## Fractions -/

theorem scale_spec {b : Nat} (hb : 0 < b) (e : Int) (num : Nat) {den : Nat} (hden : 0 < den) :
    0 < (scale b e num den).2 ∧
      ((scale b e num den).1 : ℚ) / (scale b e num den).2 = num / den * (b : ℚ) ^ e := by
  have hb' : (b : ℚ) ≠ 0 := by exact_mod_cast hb.ne'
  have hpow : ∀ n : Nat, (b : ℚ) ^ n ≠ 0 := fun n => pow_ne_zero n hb'
  unfold scale
  split
  · next h =>
    refine ⟨hden, ?_⟩
    obtain ⟨n, rfl⟩ := Int.eq_ofNat_of_zero_le h
    push_cast
    rw [Int.toNat_natCast, zpow_natCast]
    ring
  · next h =>
    obtain ⟨n, hn⟩ := Int.eq_ofNat_of_zero_le (by omega : 0 ≤ -e)
    refine ⟨Nat.mul_pos hden (Nat.pow_pos hb), ?_⟩
    rw [hn, Int.toNat_natCast, show e = -(n : Int) by omega, zpow_neg, zpow_natCast]
    push_cast
    rw [div_mul_eq_div_div]
    ring

/-- Rounding a fraction that is closer to an integer than a half. -/
theorem roundHalfEven_eq {num den m : Nat} (hden : 0 < den)
    (h : |(num : ℚ) / den - m| < 1 / 2) : roundHalfEven num den = m := by
  have hden' : (0 : ℚ) < den := by exact_mod_cast hden
  have hdiv : (num : ℚ) / den - m = (num - m * den) / den := by
    rw [sub_div, mul_div_cancel_right₀ _ hden'.ne']
  rw [hdiv, abs_div, abs_of_pos hden', div_lt_iff₀ hden', abs_lt] at h
  obtain ⟨hlower, hupper⟩ := h
  have hl : 2 * (m * den) < 2 * num + den := by
    have : (2 * (m * den) : ℚ) < 2 * num + den := by linarith
    exact_mod_cast this
  have hu : 2 * num < 2 * (m * den) + den := by
    have : (2 * num : ℚ) < 2 * (m * den) + den := by linarith
    exact_mod_cast this
  have hsplit := Nat.div_add_mod num den
  have hr := Nat.mod_lt num hden
  unfold roundHalfEven
  dsimp only
  generalize num / den = q at hsplit ⊢
  generalize num % den = r at hsplit hr ⊢
  have hq : q ≤ m := by
    by_contra hlt
    have : (m + 1) * den ≤ den * q := by
      rw [Nat.mul_comm den]
      exact Nat.mul_le_mul_right den (Nat.not_le.mp hlt)
    rw [Nat.succ_mul] at this
    omega
  have hq' : m ≤ q + 1 := by
    by_contra hlt
    have : den * q + 2 * den ≤ m * den := by
      rw [Nat.mul_comm den, ← Nat.add_mul]
      exact Nat.mul_le_mul_right den (by omega)
    omega
  rcases Nat.le_iff_lt_or_eq.mp hq with hlt | rfl
  · obtain rfl : m = q + 1 := by omega
    rw [Nat.add_mul, Nat.one_mul, Nat.mul_comm q] at hl
    exact if_neg (by omega)
  · rw [Nat.mul_comm q] at hu
    exact if_pos (.inl (by omega))

/-- Any fraction is rounded to an integer at most a half away. -/
theorem roundHalfEven_near {num den : Nat} (hden : 0 < den) :
    |(roundHalfEven num den : ℚ) - num / den| ≤ 1 / 2 := by
  have hden' : (0 : ℚ) < den := by exact_mod_cast hden
  have hsplit := Nat.div_add_mod num den
  have hr := Nat.mod_lt num hden
  have hcases : 2 * num ≤ 2 * (roundHalfEven num den * den) + den ∧
      2 * (roundHalfEven num den * den) ≤ 2 * num + den := by
    unfold roundHalfEven
    dsimp only
    generalize num / den = q at hsplit ⊢
    generalize num % den = r at hsplit hr ⊢
    split
    · rw [Nat.mul_comm q]; omega
    · rw [Nat.add_mul, Nat.one_mul, Nat.mul_comm q]; omega
  have hdiv : (roundHalfEven num den : ℚ) - num / den =
      (roundHalfEven num den * den - num) / den := by
    rw [sub_div, mul_div_cancel_right₀ _ hden'.ne']
  have hl : (2 * num : ℚ) ≤ 2 * (roundHalfEven num den * den) + den := by exact_mod_cast hcases.1
  have hu : (2 * (roundHalfEven num den * den) : ℚ) ≤ 2 * num + den := by exact_mod_cast hcases.2
  rw [hdiv, abs_div, abs_of_pos hden', div_le_iff₀ hden', abs_le]
  constructor <;> linarith

/-! ## Reading -/

/-- The exponent that `ofFraction` finds: that of the logarithms, or the one below it. -/
def binadeOf (num den : Nat) : Int :=
  let e₀ : Int := (Nat.log2 num : Int) - Nat.log2 den - 52
  let p := scale 2 (-e₀) num den
  if p.1 < 2 ^ 52 * p.2 then e₀ - 1 else e₀

theorem binade_of {num den : Nat} (hnum : num ≠ 0) (hden : 0 < den) :
    Binade 52 (binadeOf num den) ((num : ℚ) / den) := by
  have hden' : (0 : ℚ) < den := by exact_mod_cast hden
  unfold binadeOf
  dsimp only
  generalize he₀ : (Nat.log2 num : Int) - Nat.log2 den - 52 = e₀
  obtain ⟨hp, hscale⟩ := scale_spec (b := 2) two_pos (-e₀) num hden
  generalize scale 2 (-e₀) num den = p at hp hscale ⊢
  have hp' : (0 : ℚ) < p.2 := by exact_mod_cast hp
  have hpos := Rounding.two_zpow_pos (K := ℚ) e₀
  have hvalue : ((p.1 : ℚ) / p.2) * 2 ^ e₀ = num / den := by
    rw [hscale, Nat.cast_ofNat, zpow_neg, mul_assoc, inv_mul_cancel₀ hpos.ne', mul_one]
  -- `num / den` lies in the binades of the logarithms
  have hnum₁ : (2 : ℚ) ^ (Nat.log2 num : Int) ≤ num := by
    rw [zpow_natCast]
    exact_mod_cast Nat.log2_self_le hnum
  have hnum₂ : (num : ℚ) < 2 * 2 ^ (Nat.log2 num : Int) := by
    rw [zpow_natCast, ← pow_succ']
    exact_mod_cast Nat.lt_log2_self
  have hden₁ : (2 : ℚ) ^ (Nat.log2 den : Int) ≤ den := by
    rw [zpow_natCast]
    exact_mod_cast Nat.log2_self_le hden.ne'
  have hden₂ : (den : ℚ) < 2 * 2 ^ (Nat.log2 den : Int) := by
    rw [zpow_natCast, ← pow_succ']
    exact_mod_cast Nat.lt_log2_self
  have hsplit : (2 : ℚ) ^ (Nat.log2 num : Int) = 2 ^ (Nat.log2 den : Int) * (2 ^ 52 * 2 ^ e₀) := by
    rw [← zpow_natCast 2 52, ← zpow_add₀ two_ne_zero, ← zpow_add₀ two_ne_zero]
    congr 1
    omega
  have hlog := Rounding.two_zpow_pos (K := ℚ) (Nat.log2 den)
  have hq : (0 : ℚ) < 2 ^ 52 * 2 ^ e₀ := mul_pos (by norm_num) hpos
  have hlower : 2 ^ 52 * 2 ^ e₀ / 2 < (num : ℚ) / den := by
    rw [lt_div_iff₀ hden']
    have := mul_lt_mul_of_pos_left hden₂ hq
    linarith
  have hupper : (num : ℚ) / den < 2 * (2 ^ 52 * 2 ^ e₀) := by
    rw [div_lt_iff₀ hden']
    have := mul_le_mul_of_nonneg_left hden₁ hq.le
    linarith
  have hiff : p.1 < 2 ^ 52 * p.2 ↔ (num : ℚ) / den < 2 ^ 52 * 2 ^ e₀ := by
    rw [← hvalue, mul_lt_mul_iff_of_pos_right hpos, div_lt_iff₀ hp']
    exact_mod_cast Iff.rfl
  have hsucc := Rounding.two_zpow_succ (K := ℚ) (e₀ - 1)
  rw [sub_add_cancel] at hsucc
  unfold Binade
  split
  · next h =>
    have := hiff.mp h
    constructor <;> linarith
  · next h =>
    have := not_lt.mp (mt hiff.mpr h)
    constructor <;> linarith

theorem ofFraction_of_ne (neg : Bool) {num : Nat} (den : Nat) (hnum : num ≠ 0) :
    ofFraction neg num den =
      let e := max (binadeOf num den) (-1074)
      let p := scale 2 (-e) num den
      let m := roundHalfEven p.1 p.2
      let q : Nat × Int := if m = 2 ^ 53 then (2 ^ 52, e + 1) else (m, e)
      if 971 < q.2 then inf neg else finite neg q.1 q.2 := if_neg hnum

/-- What is close to a double is read as that double. -/
theorem ofFraction_eq (neg : Bool) {num den m : Nat} {e : Int} (hden : 0 < den)
    (hn : Normal 52 (-1074) m e) (hmax : e ≤ 971) (hm : m ≠ 0) (hw : Near 52 m e ((num : ℚ) / den)) :
    ofFraction neg num den = finite neg m e := by
  have hpos := Rounding.two_zpow_pos (K := ℚ) e
  have hnum : num ≠ 0 := by
    rintro rfl
    have hone : (1 : ℚ) ≤ m := by exact_mod_cast Nat.one_le_iff_ne_zero.mpr hm
    have hle := mul_le_mul_of_nonneg_right hone hpos.le
    have hlower := (abs_lt.mp hw.half).1
    rw [Nat.cast_zero, zero_div] at hlower
    linarith
  have hround : ∀ {E : Int} {k : Nat}, |(num : ℚ) / den / 2 ^ E - k| < 1 / 2 →
      roundHalfEven (scale 2 (-E) num den).1 (scale 2 (-E) num den).2 = k := by
    intro E k h
    obtain ⟨hp, hscale⟩ := scale_spec (b := 2) two_pos (-E) num hden
    apply roundHalfEven_eq hp
    rw [hscale, Nat.cast_ofNat, zpow_neg, ← div_eq_mul_inv]
    exact h
  rw [ofFraction_of_ne neg den hnum]
  rcases hw.exponent hn (binade_of hnum hden) with ⟨he, hnear⟩ | ⟨he, rfl, hnear⟩
  · have hlt : m ≠ 2 ^ 53 := Nat.ne_of_lt hn.lt
    rw [he]
    dsimp only
    rw [hround hnear, if_neg hlt]
    exact if_neg (by omega)
  · have hcarry : roundHalfEven (scale 2 (-(e - 1)) num den).1 (scale 2 (-(e - 1)) num den).2 =
        2 ^ 53 := hround (by exact_mod_cast hnear)
    rw [he]
    dsimp only
    rw [hcarry, if_pos rfl, Int.sub_add_cancel]
    exact if_neg (by omega)

/-- The doubles there are: the leading bit of the mantissa is set, unless the exponent is the
smallest one, or the double is zero. -/
def Representable : Double → Prop
  | finite _ mant exp => mant = 0 ∨ Normal 52 (-1074) mant exp ∧ exp ≤ 971
  | nan | inf _ => True

/-- What is read is a double. -/
theorem ofFraction_representable (neg : Bool) (num : Nat) {den : Nat} (hden : 0 < den) :
    (ofFraction neg num den).Representable := by
  by_cases hnum : num = 0
  · rw [ofFraction, if_pos hnum]
    exact .inl rfl
  rw [ofFraction_of_ne neg den hnum]
  obtain ⟨hlow, hhigh⟩ := binade_of hnum hden
  generalize binadeOf num den = e' at hlow hhigh
  generalize he : max e' (-1074) = e
  obtain ⟨hpos, hscale⟩ := scale_spec (b := 2) two_pos (-e) num hden
  have hround := @roundHalfEven_near (scale 2 (-e) num den).1 _ hpos
  have hpow := Rounding.two_zpow_pos (K := ℚ) e
  rw [hscale, Nat.cast_ofNat, zpow_neg, ← div_eq_mul_inv] at hround
  dsimp only
  generalize roundHalfEven _ _ = m at hround
  obtain ⟨hlo, hhi⟩ := abs_le.mp hround
  have hupper : (num : ℚ) / den / 2 ^ e < 2 ^ 53 := by
    rw [div_lt_iff₀ hpow]
    refine hhigh.trans_le (mul_le_mul_of_nonneg_left ?_ (by positivity))
    exact zpow_le_zpow_right₀ one_le_two (by omega)
  have hm : m ≤ 2 ^ 53 := by
    have : (m : ℚ) < 2 ^ 53 + 1 := by linarith
    have : m < 2 ^ 53 + 1 := by exact_mod_cast this
    omega
  have hleading : 2 ^ 52 ≤ m ∨ e = -1074 := by
    by_cases hmin : e = -1074
    · exact .inr hmin
    left
    obtain rfl : e' = e := by omega
    have hlower : (2 : ℚ) ^ 52 ≤ num / den / 2 ^ e' := (le_div_iff₀ hpow).mpr hlow
    have : (2 ^ 52 : ℚ) < m + 1 := by linarith
    have : (2 ^ 52 : Nat) < m + 1 := by exact_mod_cast this
    omega
  split
  · split
    · trivial
    · next h =>
      have hpow : 2 ^ 52 < 2 ^ 53 := by norm_num
      exact .inr ⟨⟨hpow, by omega, .inl (le_refl _)⟩, by omega⟩
  · next hne =>
    split
    · trivial
    · next h => exact .inr ⟨⟨lt_of_le_of_ne hm hne, by omega, hleading⟩, not_lt.mp h⟩

end RocksdbService.Double
