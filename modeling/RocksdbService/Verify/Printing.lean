import RocksdbService.Verify.Reader

/-! # How numbers print

Different numbers print differently (`uintToString_injective`), and a number prints in a few
characters, so the text a well-formed value converts to always fits into a value again
(`Value.WellFormed.asString_length_le`). -/

namespace RocksdbService

namespace Json

theorem uintToString_length_le {n k : Nat} (hk : 0 < k) (h : n < 10 ^ k) :
    (uintToString n).length ≤ k := by
  rw [uintToString, List.length_map]
  exact (Nat.length_toDigits_le_iff (by decide) hk).mpr h

theorem ofNat_toUInt8 {c : Char} (h : c.isDigit = true) : Char.ofNat c.toUInt8.toNat = c := by
  simp only [Char.isDigit, Bool.and_eq_true, decide_eq_true_eq, ge_iff_le] at h
  have h1 : c.toNat ≤ 57 := h.2
  have : c.toUInt8.toNat = c.toNat := by
    show c.val.toUInt8.toNat = c.val.toNat
    rw [UInt32.toNat_toUInt8]
    exact Nat.mod_eq_of_lt (h1.trans_lt (by decide))
  rw [this, Char.ofNat_toNat]

theorem uintToString_injective : Function.Injective uintToString := by
  intro m n h
  have back : ∀ k, (uintToString k).map (fun b => Char.ofNat b.toNat) = Nat.toDigits 10 k := by
    intro k
    rw [uintToString, List.map_map]
    refine (List.map_congr_left fun c hc => ?_).trans (List.map_id _)
    exact ofNat_toUInt8 (Nat.isDigit_of_mem_toDigits (by decide) (by decide) hc)
  have hd : Nat.toDigits 10 m = Nat.toDigits 10 n := by rw [← back, ← back, h]
  rw [← Nat.ofDigitChars_ten_toDigits (n := m), hd, Nat.ofDigitChars_ten_toDigits]

theorem intToString_length_le {i : Int} {k : Nat} (hk : 0 < k) (h : i.natAbs < 10 ^ k) :
    (intToString i).length ≤ k + 1 := by
  have hle := uintToString_length_le hk h
  unfold intToString
  split
  · exact Nat.succ_le_succ hle
  · exact hle.trans (Nat.le_succ k)

end Json

namespace Double

theorem digits_length (n m : Nat) : (digits n m).length = n := by
  induction n generalizing m with
  | zero => rfl
  | succ n ih => rw [digits, List.length_append, ih]; rfl

theorem stripZeros_length_le (ds : Bytes) : (stripZeros ds).length ≤ ds.length := by
  rw [stripZeros, List.length_reverse]
  exact (List.dropWhile_suffix _).length_le.trans (List.length_reverse ..).le

theorem point_length_le (ds : Bytes) : (point ds).length ≤ ds.length + 1 := by
  unfold point
  split
  · exact Nat.zero_le _
  · exact Nat.le_refl _

theorem decimalExponentFrom_bounds (num den n : Nat) (x : Int) :
    x - n ≤ decimalExponentFrom num den n x ∧ decimalExponentFrom num den n x ≤ x := by
  induction n generalizing x with
  | zero => simp [decimalExponentFrom]
  | succ n ih =>
    rw [decimalExponentFrom]
    split
    split
    · omega
    · have := ih (x - 1)
      omega

theorem significand_bounds (num den : Nat) :
    -324 ≤ (significand num den).2 ∧ (significand num den).2 ≤ 309 := by
  have h := decimalExponentFrom_bounds num den 632 308
  unfold significand
  dsimp only
  split <;> dsimp only <;> omega

theorem exponentDigits_length_le {n : Nat} (h : n < 1000) : (exponentDigits n).length ≤ 3 := by
  unfold exponentDigits
  split
  · exact Nat.le_succ 2
  · exact Json.uintToString_length_le (by decide) h

theorem printPositive_length_le (num den : Nat) : (printPositive num den).length ≤ 40 := by
  have hx := significand_bounds num den
  unfold printPositive
  split
  next m x heq =>
  rw [heq] at hx
  dsimp only at hx ⊢
  have hds := digits_length 17 m
  generalize digits 17 m = ds at hds
  split
  · split
    · have h₁ := point_length_le (stripZeros (ds.drop (x.toNat + 1)))
      have h₂ := stripZeros_length_le (ds.drop (x.toNat + 1))
      simp only [List.length_append, List.length_take, List.length_drop] at *
      omega
    · have h₁ := point_length_le (List.replicate ((-x).toNat - 1) 0x30 ++ stripZeros ds)
      have h₂ := stripZeros_length_le ds
      simp only [List.length_append, List.length_cons, List.length_replicate] at *
      omega
  · have h₁ := point_length_le (stripZeros (ds.drop 1))
    have h₂ := stripZeros_length_le (ds.drop 1)
    have h₃ : (exponentDigits x.natAbs).length ≤ 3 := exponentDigits_length_le (by omega)
    simp only [List.length_append, List.length_cons, List.length_take, List.length_drop] at *
    omega

/-- A double prints in a few characters. -/
theorem valueToString_length_le (d : Double) : d.valueToString.length ≤ 43 := by
  unfold valueToString
  split
  · decide
  · decide
  · decide
  · next neg mant exp =>
    split
    next num den _ =>
    have hbody : (if mant = 0 then [0x30] else printPositive num den).length ≤ 40 := by
      split
      · decide
      · exact printPositive_length_le num den
    dsimp only
    generalize (if mant = 0 then [0x30] else printPositive num den) = body at hbody
    have hs : (if neg = true then 0x2d :: body else body).length ≤ 41 := by
      split
      · exact Nat.succ_le_succ hbody
      · omega
    generalize (if neg = true then 0x2d :: body else body) = s at hs
    have htwo : (ascii ".0").length = 2 := by decide
    split
    · omega
    · rw [List.length_append]
      omega

end Double

namespace Json.Value

/-- The text that a well-formed value converts to is that of a string or short. -/
theorem WellFormed.asString_cases {v : Value} (h : v.WellFormed) {s : Bytes}
    (hs : v.asString = .ok s) : (∃ t, v = .string t ∧ s = t.bytes) ∨ s.length ≤ 43 := by
  cases h with
  | null => cases hs; exact .inr (Nat.zero_le _)
  | @int i h =>
    cases hs
    have hi : i.natAbs < 10 ^ 19 := by omega
    exact .inr ((intToString_length_le (by decide) hi).trans (by decide))
  | @uint n h =>
    cases hs
    have hn : n < 10 ^ 20 := h.trans (by decide)
    exact .inr ((uintToString_length_le (by decide) hn).trans (by decide))
  | real d => cases hs; exact .inr d.valueToString_length_le
  | string s => cases hs; exact .inl ⟨s, rfl, rfl⟩
  | bool b => cases hs; exact .inr (by cases b <;> decide)
  | array _ => cases hs
  | object _ _ => cases hs

/-- The text is short enough to be held by a value. -/
theorem WellFormed.asString_length_le {v : Value} (h : v.WellFormed) {s : Bytes}
    (hs : v.asString = .ok s) : s.length ≤ maxStringLength := by
  rcases h.asString_cases hs with ⟨t, -, rfl⟩ | h
  · exact t.fits
  · exact h.trans (by decide)

end Json.Value

end RocksdbService
