import RocksdbService.Verify.Doubles

/-! # The decimals that are printed

An integer prints as its digits (`Numeral.ofInt`), and a double as seventeen digits without the zeros
at the end, with a point or an exponent (`exists_numeral`). Both are numbers of the grammar. Since the
double is the one nearest to what is printed, it is read back (`read_valueToString`). -/

namespace RocksdbService

open Double (digitsValue)

namespace Json

/-! ## Digits -/

theorem isDigit_digit {d : Nat} (h : d < 10) :
    isDigit (0x30 + d).toUInt8 = true ∧ (0x30 + d).toUInt8.toNat - 0x30 = d := by
  revert d
  decide

theorem digitsFrom_append (n : Nat) (xs ys : Bytes) :
    digitsFrom n (xs ++ ys) = digitsFrom (digitsFrom n xs) ys := List.foldl_append

theorem digitsFrom_digit (n : Nat) {d : Nat} (h : d < 10) (ds : Bytes) :
    digitsFrom n (ds ++ [(0x30 + d).toUInt8]) = 10 * digitsFrom n ds + d := by
  rw [digitsFrom_append, digitsFrom_cons, digitsFrom_nil, (isDigit_digit h).2]

theorem digitsFrom_zeros (n k : Nat) : digitsFrom n (List.replicate k 0x30) = n * 10 ^ k := by
  induction k generalizing n with
  | zero => rw [List.replicate_zero, digitsFrom_nil, Nat.pow_zero, Nat.mul_one]
  | succ k ih =>
    have hzero : (0x30 : Byte).toNat - 0x30 = 0 := rfl
    rw [List.replicate_succ, digitsFrom_cons, hzero, Nat.add_zero, ih, Nat.pow_succ',
      ← Nat.mul_assoc, Nat.mul_comm n 10]

theorem digitsValue_eq (ds : Bytes) : digitsValue ds = digitsFrom 0 ds := rfl

theorem uintToString_of_lt {n : Nat} (h : n < 10) : uintToString n = [(0x30 + n).toUInt8] := by
  revert n
  decide

theorem uintToString_of_le {n : Nat} (h : 10 ≤ n) :
    uintToString n = uintToString (n / 10) ++ [(0x30 + n % 10).toUInt8] := by
  have hlast : ∀ d, d < 10 → (Nat.digitChar d).toUInt8 = (0x30 + d).toUInt8 := by decide
  rw [uintToString, Nat.toDigits_of_base_le (by decide) h, List.map_append, List.map_singleton,
    hlast _ (Nat.mod_lt _ (by decide)), ← uintToString]

/-- The digits of a number spell it, without a zero in front. -/
theorem uintToString_spells (n : Nat) : (∀ c ∈ uintToString n, isDigit c = true) ∧
    digitsValue (uintToString n) = n ∧ uintToString n ≠ [] ∧
      ((uintToString n).head? = some 0x30 → n = 0) := by
  induction n using Nat.strongRecOn with
  | ind n ih =>
    rcases Nat.lt_or_ge n 10 with h | h
    · obtain ⟨hdigit, hvalue⟩ := isDigit_digit h
      rw [uintToString_of_lt h]
      refine ⟨List.forall_mem_singleton.mpr hdigit, ?_, List.cons_ne_nil _ _, fun hhead => ?_⟩
      · rw [digitsValue_eq, digitsFrom_cons, digitsFrom_nil, hvalue, Nat.mul_zero, Nat.zero_add]
      · rw [List.head?_cons, Option.some.injEq] at hhead
        rw [hhead] at hvalue
        exact hvalue.symm
    · obtain ⟨hdigits, hvalue, hne, hhead⟩ := ih (n / 10) (Nat.div_lt_self (by omega) (by decide))
      have hmod := Nat.mod_lt n (by decide : 10 > 0)
      rw [uintToString_of_le h]
      refine ⟨List.forall_mem_append.mpr
        ⟨hdigits, List.forall_mem_singleton.mpr (isDigit_digit hmod).1⟩, ?_, ?_, fun h0 => ?_⟩
      · rw [digitsValue_eq, digitsFrom_digit 0 hmod, ← digitsValue_eq, hvalue]
        omega
      · exact List.append_ne_nil_of_left_ne_nil hne _
      · rw [List.head?_append_of_ne_nil _ hne] at h0
        have := hhead h0
        omega

/-- The number that an integer prints as. -/
def Numeral.ofInt (i : Int) : Numeral where
  neg := i < 0
  whole := uintToString i.natAbs
  hwhole := (uintToString_spells _).1
  hfrac := List.forall_mem_nil _
  hne := (uintToString_spells _).2.2.1
  hzero h := by rw [(uintToString_spells _).2.2.2 h]; decide

theorem Numeral.ofInt_text (i : Int) : (Numeral.ofInt i).text = intToString i := by
  rw [text_eq, tail, ofInt]
  unfold intToString
  by_cases h : i < 0
  · simp [h, Double.point]
  · simp [h, Double.point]

theorem Numeral.ofInt_value {i : Int} (h : -2 ^ 63 ≤ i ∧ i < 2 ^ 64) :
    (Numeral.ofInt i).value = if i < 2 ^ 63 then .int i else .uint i.natAbs := by
  have hvalue := (uintToString_spells i.natAbs).2.1
  have hreal : ¬ ((Numeral.ofInt i).frac ≠ [] ∨ (Numeral.ofInt i).exp.isSome) := by simp [ofInt]
  have hwhole : digitsValue (Numeral.ofInt i).whole = i.natAbs := hvalue
  unfold value
  dsimp only
  rw [if_neg hreal, hwhole]
  by_cases hneg : i < 0
  · rw [if_pos (by simp [ofInt, hneg]), if_pos (by omega), if_pos (by omega)]
    exact congrArg Value.int (by omega)
  · rw [if_neg (by simp [ofInt, hneg])]
    by_cases hint : i < 2 ^ 63
    · rw [if_pos (by omega), if_pos hint]
      exact congrArg Value.int (by omega)
    · rw [if_neg (by omega), if_pos (by omega), if_neg hint]

end Json

namespace Double

open Json

/-! ## Seventeen digits -/

theorem digits_spell (n m : Nat) : (∀ c ∈ digits n m, isDigit c = true) ∧
    digitsValue (digits n m) = m % 10 ^ n := by
  induction n generalizing m with
  | zero => exact ⟨List.forall_mem_nil _, (Nat.mod_one m).symm⟩
  | succ n ih =>
    obtain ⟨hdigits, hvalue⟩ := ih (m / 10)
    have hmod := Nat.mod_lt m (by decide : 10 > 0)
    rw [digits]
    refine ⟨List.forall_mem_append.mpr
      ⟨hdigits, List.forall_mem_singleton.mpr (isDigit_digit hmod).1⟩, ?_⟩
    rw [digitsValue_eq, digitsFrom_digit 0 hmod, ← digitsValue_eq, hvalue, Nat.pow_succ',
      Nat.mod_mul]
    omega

theorem digitsFrom_lt {ds : Bytes} (hds : ∀ c ∈ ds, isDigit c = true) (n : Nat) :
    digitsFrom n ds < (n + 1) * 10 ^ ds.length := by
  induction ds generalizing n with
  | nil => simp [digitsFrom_nil]
  | cons c ds ih =>
    obtain ⟨hc, hds⟩ := List.forall_mem_cons.mp hds
    have hdigit := OurReader.isDigit_le hc
    rw [digitsFrom_cons, List.length_cons, Nat.pow_succ', ← Nat.mul_assoc]
    exact (ih hds _).trans_le (Nat.mul_le_mul_right _ (by omega))

/-- Digits with as many places as the number needs have no zero in front. -/
theorem digits_head {n m : Nat} (hm : 10 ^ n ≤ m ∧ m < 10 ^ (n + 1)) :
    (digits (n + 1) m).head? ≠ some 0x30 := by
  intro h
  obtain ⟨hdigits, hvalue⟩ := digits_spell (n + 1) m
  have hlen := digits_length (n + 1) m
  rw [Nat.mod_eq_of_lt hm.2] at hvalue
  obtain ⟨ds, hds⟩ := List.head?_eq_some_iff.mp h
  rw [hds] at hdigits hvalue hlen
  have hzero : (0x30 : Byte).toNat - 0x30 = 0 := rfl
  have hlt := digitsFrom_lt (List.forall_mem_cons.mp hdigits).2 0
  rw [digitsValue_eq, digitsFrom_cons, hzero] at hvalue
  rw [List.length_cons, Nat.add_right_cancel_iff] at hlen
  rw [hlen, Nat.zero_add, Nat.one_mul] at hlt
  exact absurd hvalue (Nat.ne_of_lt (hlt.trans_le hm.1))

theorem stripZeros_append (ds : Bytes) : ∃ k, ds = stripZeros ds ++ List.replicate k 0x30 := by
  have hsplit := List.takeWhile_append_dropWhile (p := (· = (0x30 : Byte))) (l := ds.reverse)
  have hzeros : ds.reverse.takeWhile (· = (0x30 : Byte)) =
      List.replicate (ds.reverse.takeWhile (· = (0x30 : Byte))).length 0x30 :=
    List.eq_replicate_iff.mpr ⟨rfl, fun c hc => by simpa using List.mem_takeWhile_imp hc⟩
  refine ⟨(ds.reverse.takeWhile (· = (0x30 : Byte))).length, ?_⟩
  rw [stripZeros, ← List.reverse_replicate, ← hzeros, ← List.reverse_append, hsplit,
    List.reverse_reverse]

theorem stripZeros_digits {ds : Bytes} (h : ∀ c ∈ ds, isDigit c = true) :
    ∀ c ∈ stripZeros ds, isDigit c = true := by
  intro c hc
  obtain ⟨k, hk⟩ := stripZeros_append ds
  exact h c (hk ▸ List.mem_append_left _ hc)

theorem exponentDigits_spell (n : Nat) : (∀ c ∈ exponentDigits n, isDigit c = true) ∧
    digitsValue (exponentDigits n) = n ∧ exponentDigits n ≠ [] := by
  unfold exponentDigits
  split
  · next h =>
    obtain ⟨hdigit, hvalue⟩ := isDigit_digit h
    refine ⟨List.forall_mem_cons.mpr ⟨by decide, List.forall_mem_singleton.mpr hdigit⟩, ?_,
      List.cons_ne_nil _ _⟩
    have hzero : (0x30 : Byte).toNat - 0x30 = 0 := rfl
    rw [digitsValue_eq, digitsFrom_cons, digitsFrom_cons, digitsFrom_nil, hzero, hvalue]
    omega
  · obtain ⟨hdigits, hvalue, hne, -⟩ := uintToString_spells n
    exact ⟨hdigits, hvalue, hne⟩

end Double

namespace Json.Numeral

open Rounding (Near Normal)

/-- The number that is spelled, without its sign. -/
def magnitude (n : Numeral) : ℚ :=
  digitsValue (n.whole ++ n.frac) * 10 ^ ((n.exp.map Exponent.value).getD 0 - n.frac.length)

/-- A number close to a double stands for that double. -/
theorem nearest_eq (n : Numeral) {m : Nat} {e : Int} (hn : Normal 52 (-1074) m e) (hmax : e ≤ 971)
    (hm : m ≠ 0) (hw : Near 52 m e n.magnitude) : n.nearest = .finite n.neg m e := by
  obtain ⟨hpos, hscale⟩ := Double.scale_spec (b := 10) (by decide)
    ((n.exp.map Exponent.value).getD 0 - n.frac.length) (digitsValue (n.whole ++ n.frac)) Nat.one_pos
  rw [Nat.cast_one, div_one] at hscale
  rw [magnitude, ← Nat.cast_ofNat (n := 10), ← hscale] at hw
  exact Double.ofFraction_eq n.neg hpos hn hmax hm hw

theorem value_real {n : Numeral} (h : n.frac ≠ [] ∨ n.exp.isSome) : n.value = .real n.nearest := if_pos h

end Json.Numeral

namespace Double

open Json (Numeral Exponent isDigit digitsFrom_append digitsFrom_zeros digitsValue_eq)
open Rounding (Near Normal)

/-- A text without point and exponent is given a point, as `valueToString` does. -/
def pointed (body : Bytes) : Bytes :=
  if body.contains 0x2e || body.contains 0x65 then body else body ++ ascii ".0"

theorem strip_value {ds f : Bytes} {k : Nat} (h : ds = f ++ List.replicate k 0x30) :
    digitsValue ds = digitsValue f * 10 ^ k := by
  rw [h, digitsValue_eq, digitsFrom_append, digitsFrom_zeros, ← digitsValue_eq]

/-- Zeros at the end move the exponent. -/
theorem shift_eq {m a k : Nat} {i e : Int} (hm : m = a * 10 ^ k) (he : i = e + k) :
    (a : ℚ) * 10 ^ i = m * 10 ^ e := by
  rw [hm, he, zpow_add₀ (by norm_num), zpow_natCast]
  push_cast
  ring

theorem contains_digits {ds : Bytes} (h : ∀ c ∈ ds, isDigit c = true) {c : Byte}
    (hc : isDigit c = false) : ds.contains c = false := by
  rw [← Bool.not_eq_true, List.contains_iff_mem]
  intro hmem
  rw [h c hmem] at hc
  cases hc

variable {whole f : Bytes} (hwhole : ∀ c ∈ whole, isDigit c = true) (hf : ∀ c ∈ f, isDigit c = true)
  (hne : whole ≠ []) (hzero : whole.head? = some 0x30 → whole = [0x30])

include hwhole hf hne hzero in
/-- Digits with a point, if there is something after it. -/
theorem exists_pointed (neg : Bool) : ∃ n : Numeral, n.neg = neg ∧
    n.whole ++ n.tail = pointed (whole ++ point f) ∧ (n.frac ≠ [] ∨ n.exp.isSome) ∧
      n.magnitude = digitsValue (whole ++ f) * 10 ^ (-f.length : Int) := by
  by_cases h : f = []
  · have hdigit : ∀ c ∈ ([0x30] : Bytes), isDigit c = true := List.forall_mem_singleton.mpr rfl
    refine ⟨⟨neg, whole, [0x30], none, hwhole, hdigit, hne, hzero⟩, rfl, ?_,
      .inl (List.cons_ne_nil _ _), ?_⟩
    · have hpoint : point f = [] := if_pos h
      rw [hpoint, List.append_nil, pointed, contains_digits hwhole rfl, contains_digits hwhole rfl]
      rfl
    · have hten : digitsValue (whole ++ [0x30]) = digitsValue whole * 10 ^ 1 :=
        strip_value rfl
      rw [h, List.append_nil]
      exact (shift_eq hten (by simp)).symm
  · refine ⟨⟨neg, whole, f, none, hwhole, hf, hne, hzero⟩, rfl, ?_, .inl h, ?_⟩
    · have hmem : (whole ++ point f).contains 0x2e = true := by
        rw [List.contains_iff_mem, point, if_neg h]
        exact List.mem_append_right _ List.mem_cons_self
      rw [pointed, hmem, Numeral.tail]
      simp
    · rw [Numeral.magnitude]
      simp

include hwhole hf hne hzero in
/-- Digits with an exponent. -/
theorem exists_exponent (neg : Bool) (x : Int) : ∃ n : Numeral, n.neg = neg ∧
    n.whole ++ n.tail = pointed (whole ++ point f ++
      (0x65 :: (if x < 0 then 0x2d else 0x2b) :: exponentDigits x.natAbs)) ∧
      (n.frac ≠ [] ∨ n.exp.isSome) ∧
        n.magnitude = digitsValue (whole ++ f) * 10 ^ (x - f.length) := by
  obtain ⟨hdigits, hvalue, hdigitsNe⟩ := exponentDigits_spell x.natAbs
  let e : Exponent := ⟨0x65, [if x < 0 then 0x2d else 0x2b], exponentDigits x.natAbs, .inl rfl,
    by split <;> simp, hdigits, hdigitsNe⟩
  have he : e.value = x := by
    have hsign : e.sign = [if x < 0 then 0x2d else 0x2b] := rfl
    have hds : digitsValue e.digits = x.natAbs := hvalue
    rw [Exponent.value, hsign, hds]
    by_cases hx : x < 0
    · rw [if_pos hx, if_pos rfl]; omega
    · rw [if_neg hx, if_neg (by decide)]; omega
  refine ⟨⟨neg, whole, f, some e, hwhole, hf, hne, hzero⟩, rfl, ?_, .inr rfl, ?_⟩
  · have hmem : ∀ s : Bytes, (whole ++ point f ++ (0x65 :: s)).contains 0x65 = true := by
      intro s
      rw [List.contains_iff_mem]
      exact List.mem_append_right _ List.mem_cons_self
    rw [pointed, hmem, Bool.or_true, if_pos rfl, Numeral.tail, List.append_assoc]
    rfl
  · rw [Numeral.magnitude]
    simp [he]

/-- The three ways to print seventeen digits. -/
theorem exists_numeral (neg : Bool) {num den m : Nat} {x : Int} (hsig : significand num den = (m, x))
    (hm : 10 ^ 16 ≤ m ∧ m < 10 ^ 17) : ∃ n : Numeral, n.neg = neg ∧
      n.whole ++ n.tail = pointed (printPositive num den) ∧ (n.frac ≠ [] ∨ n.exp.isSome) ∧
        n.magnitude = m * 10 ^ (x - 16) := by
  obtain ⟨hdigits, hvalue⟩ := digits_spell 17 m
  have hhead := digits_head hm
  have hlen := digits_length 17 m
  rw [Nat.mod_eq_of_lt hm.2] at hvalue
  unfold printPositive
  rw [hsig]
  dsimp only
  generalize digits 17 m = ds at hdigits hvalue hhead hlen
  -- the first digits and the others
  have hfirst : ∀ k, 0 < k → ds.take k ≠ [] ∧ (ds.take k).head? ≠ some 0x30 := by
    intro k hk
    obtain ⟨d, ds, rfl⟩ := List.exists_cons_of_length_pos (by omega : 0 < ds.length)
    obtain ⟨k, rfl⟩ := Nat.exists_eq_succ_of_ne_zero hk.ne'
    rw [List.take_succ_cons]
    exact ⟨List.cons_ne_nil _ _, hhead⟩
  have hsplit : ∀ k, ∃ j, m = digitsValue (ds.take k ++ stripZeros (ds.drop k)) * 10 ^ j ∧
      17 - k = (stripZeros (ds.drop k)).length + j := by
    intro k
    obtain ⟨j, hj⟩ := stripZeros_append (ds.drop k)
    refine ⟨j, ?_, ?_⟩
    · rw [← hvalue]
      exact strip_value (by rw [List.append_assoc, ← hj, List.take_append_drop])
    · have := congrArg List.length hj
      rwa [List.length_drop, hlen, List.length_append, List.length_replicate] at this
  have htake : ∀ k, ∀ c ∈ ds.take k, isDigit c = true := fun k c hc =>
    hdigits c (List.mem_of_mem_take hc)
  have hdrop : ∀ k, ∀ c ∈ stripZeros (ds.drop k), isDigit c = true := fun k =>
    stripZeros_digits fun c hc => hdigits c (List.mem_of_mem_drop hc)
  split
  · split
    · next hx hx' =>
      obtain ⟨hne, hzero⟩ := hfirst (x.toNat + 1) (Nat.succ_pos _)
      obtain ⟨j, hj, hj'⟩ := hsplit (x.toNat + 1)
      obtain ⟨n, hneg, htext, hreal, hn⟩ := exists_pointed (htake (x.toNat + 1))
        (hdrop (x.toNat + 1)) hne (fun h => absurd h hzero) neg
      exact ⟨n, hneg, htext, hreal, hn.trans (shift_eq hj (by omega))⟩
    · next hx hx' =>
      obtain ⟨j, hj, hj'⟩ := hsplit 0
      rw [List.take_zero, List.nil_append, List.drop_zero] at hj
      rw [List.drop_zero] at hj'
      have hzeros : ∀ c ∈ List.replicate ((-x).toNat - 1) (0x30 : Byte) ++ stripZeros ds,
          isDigit c = true := by
        refine List.forall_mem_append.mpr ⟨fun c hc => ?_, stripZeros_digits hdigits⟩
        rw [List.eq_of_mem_replicate hc]
        rfl
      have hdigit : ∀ c ∈ ([0x30] : Bytes), isDigit c = true := List.forall_mem_singleton.mpr rfl
      obtain ⟨n, hneg, htext, hreal, hn⟩ := exists_pointed hdigit hzeros (List.cons_ne_nil _ _)
        (fun _ => rfl) neg
      refine ⟨n, hneg, htext, hreal, hn.trans (shift_eq (k := j) ?_ ?_)⟩
      · have hlead : digitsValue ([0x30] ++ (List.replicate ((-x).toNat - 1) 0x30 ++ stripZeros ds)) =
            digitsValue (stripZeros ds) := by
          rw [← List.append_assoc, ← List.replicate_one, ← List.replicate_add, digitsValue_eq,
            digitsFrom_append, digitsFrom_zeros, Nat.zero_mul, ← digitsValue_eq]
        rw [hlead, hj]
      · rw [List.length_append, List.length_replicate]
        omega
  · obtain ⟨hne, hzero⟩ := hfirst 1 one_pos
    obtain ⟨j, hj, hj'⟩ := hsplit 1
    obtain ⟨n, hneg, htext, hreal, hn⟩ := exists_exponent (htake 1) (hdrop 1) hne
      (fun h => absurd h hzero) neg x
    exact ⟨n, hneg, htext, hreal, hn.trans (shift_eq hj (by omega))⟩

/-! ## Rounding to seventeen digits -/

/-- The decimal exponent is found when the search starts above it and goes below it. -/
theorem decimalExponentFrom_spec {num den : Nat} (hden : 0 < den) {n : Nat} {x : Int}
    (hlow : (10 : ℚ) ^ (x - n) ≤ num / den) (hhigh : (num : ℚ) / den < 10 ^ (x + 1)) :
    (10 : ℚ) ^ decimalExponentFrom num den n x ≤ num / den ∧
      (num : ℚ) / den < 10 ^ (decimalExponentFrom num den n x + 1) := by
  have hden' : (0 : ℚ) < den := by exact_mod_cast hden
  induction n generalizing x with
  | zero =>
    rw [Nat.cast_zero, sub_zero] at hlow
    exact ⟨hlow, hhigh⟩
  | succ n ih =>
    obtain ⟨hpos, hscale⟩ := scale_spec (b := 10) (by decide) x 1 one_pos
    have hpos' : (0 : ℚ) < (scale 10 x 1 1).2 := by exact_mod_cast hpos
    rw [Nat.cast_one, div_one, one_mul, Nat.cast_ofNat] at hscale
    have hiff : (scale 10 x 1 1).1 * den ≤ num * (scale 10 x 1 1).2 ↔ (10 : ℚ) ^ x ≤ num / den := by
      rw [← hscale, div_le_div_iff₀ hpos' hden']
      exact_mod_cast Iff.rfl
    rw [decimalExponentFrom]
    dsimp only
    split
    · next h => exact ⟨hiff.mp h, hhigh⟩
    · next h =>
      refine ih ?_ ?_
      · rw [show x - 1 - (n : Int) = x - ((n + 1 : Nat) : Int) by omega]
        exact hlow
      · rw [sub_add_cancel]
        exact not_le.mp (mt hiff.mpr h)

/-- Seventeen digits are as close as half a unit of the last one. -/
theorem significand_spec {num den : Nat} (hden : 0 < den) (hlow : (10 : ℚ) ^ (-324 : Int) ≤ num / den)
    (hhigh : (num : ℚ) / den < 10 ^ (309 : Int)) : ∃ x : Int, (10 : ℚ) ^ x ≤ num / den ∧
      (10 ^ 16 ≤ (significand num den).1 ∧ (significand num den).1 < 10 ^ 17) ∧
        |((significand num den).1 : ℚ) * 10 ^ ((significand num den).2 - 16) - num / den| ≤
          10 ^ (x - (16 : Nat)) / 2 := by
  obtain ⟨hle, hlt⟩ := decimalExponentFrom_spec hden (n := 632) (x := 308) hlow hhigh
  refine ⟨decimalExponentFrom num den 632 308, hle, ?_⟩
  unfold significand
  dsimp only
  generalize decimalExponentFrom num den 632 308 = x at hle hlt
  obtain ⟨hpos, hscale⟩ := scale_spec (b := 10) (by decide) (16 - x) num hden
  have hround := @roundHalfEven_near (scale 10 (16 - x) num den).1 _ hpos
  rw [hscale, Nat.cast_ofNat] at hround
  generalize roundHalfEven _ _ = m at hround
  have hten : (0 : ℚ) < 10 ^ (x - 16) := zpow_pos (by norm_num) _
  have hunit : (10 : ℚ) ^ (16 - x) * 10 ^ (x - 16) = 1 := by
    rw [← zpow_add₀ (by norm_num)]
    simp
  have hpow : (10 : ℚ) ^ x = 10 ^ 16 * 10 ^ (x - 16) := by
    rw [← zpow_natCast, ← zpow_add₀ (by norm_num)]
    congr 1
    omega
  have hpow' : (10 : ℚ) ^ (x + 1) = 10 ^ 17 * 10 ^ (x - 16) := by
    rw [← zpow_natCast, ← zpow_add₀ (by norm_num)]
    congr 1
    omega
  -- in units of the last digit
  have hv : (num : ℚ) / den = num / den * 10 ^ (16 - x) * 10 ^ (x - 16) := by
    rw [mul_assoc, hunit, mul_one]
  generalize (num : ℚ) / den * 10 ^ (16 - x) = u at hround hv
  rw [hv] at hle hlt ⊢
  rw [hpow, mul_le_mul_iff_of_pos_right hten] at hle
  rw [hpow', mul_lt_mul_iff_of_pos_right hten] at hlt
  have hnear : |(m : ℚ) * 10 ^ (x - 16) - u * 10 ^ (x - 16)| ≤ 10 ^ (x - (16 : Nat)) / 2 := by
    rw [← sub_mul, abs_mul, abs_of_pos hten]
    have := mul_le_mul_of_nonneg_right hround hten.le
    rw [Nat.cast_ofNat]
    linarith
  obtain ⟨hlo, hhi⟩ := abs_le.mp hround
  have hm : 10 ^ 16 ≤ m := by
    have : (10 ^ 16 : ℚ) < m + 1 := by linarith
    have : (10 ^ 16 : Nat) < m + 1 := by exact_mod_cast this
    omega
  have hm' : m ≤ 10 ^ 17 := by
    have : (m : ℚ) < 10 ^ 17 + 1 := by linarith
    have : m < 10 ^ 17 + 1 := by exact_mod_cast this
    omega
  split
  · next h =>
    refine ⟨⟨le_refl _, Nat.pow_lt_pow_right (by decide) (by decide)⟩, ?_⟩
    have hcarry : ((10 ^ 16 : Nat) : ℚ) * 10 ^ (x + 1 - 16) = m * 10 ^ (x - 16) := by
      rw [h, show x + 1 - 16 = x - 16 + 1 by omega, zpow_add₀ (by norm_num), zpow_one]
      push_cast
      ring
    rw [hcarry]
    exact hnear
  · next h => exact ⟨⟨hm, lt_of_le_of_ne hm' h⟩, hnear⟩

/-! ## The text of a double -/

/-- A double with the one exponent that the reader gives to zero. -/
def canonical : Double → Double
  | finite neg 0 _ => finite neg 0 0
  | d => d

theorem canonical_of_ne {mant : Nat} (h : mant ≠ 0) (neg : Bool) (exp : Int) :
    (finite neg mant exp).canonical = finite neg mant exp := by
  cases mant with
  | zero => exact absurd rfl h
  | succ mant => rfl

theorem valueToString_finite (neg : Bool) (mant : Nat) (exp : Int) :
    (finite neg mant exp).valueToString = (if neg then [0x2d] else []) ++
      pointed (if mant = 0 then [0x30]
        else printPositive (scale 2 exp mant 1).1 (scale 2 exp mant 1).2) := by
  unfold valueToString pointed
  dsimp only
  generalize (if mant = 0 then _ else printPositive _ _) = body
  cases neg
  · rfl
  · have hcons : ∀ c : Byte, c ≠ 0x2d → (0x2d :: body).contains c = body.contains c := by
      intro c hc
      rw [List.contains_cons, beq_eq_false_iff_ne.mpr hc, Bool.false_or]
    rw [if_pos rfl, if_pos rfl, hcons 0x2e (by decide), hcons 0x65 (by decide)]
    split <;> rfl

/-- The number that stands for an infinity. -/
def tooLarge (neg : Bool) : Numeral where
  neg
  whole := [0x31]
  exp := some {
    marker := 0x65
    sign := [0x2b]
    digits := ascii "9999"
    hmarker := .inl rfl
    hsign := .inr (.inl rfl)
    hdigits := List.all_eq_true.mp rfl
    hne := by decide }
  hwhole := List.forall_mem_singleton.mpr rfl
  hfrac := List.forall_mem_nil _
  hne := List.cons_ne_nil _ _
  hzero := by decide

theorem tooLarge_text : ∀ neg, (tooLarge neg).text = (inf neg).valueToString := by decide

theorem tooLarge_nearest : ∀ neg, (tooLarge neg).nearest = inf neg := by decide +kernel

/-- A double other than NaN is printed as a number, and it is the double nearest to this number. -/
theorem exists_spelling {d : Double} (h : d.Representable) (hnan : d ≠ nan) :
    ∃ n : Numeral, n.text = d.valueToString ∧ n.value = .real d.canonical := by
  cases d with
  | nan => exact absurd rfl hnan
  | inf neg =>
    refine ⟨tooLarge neg, tooLarge_text neg, ?_⟩
    rw [Numeral.value_real (.inr rfl), tooLarge_nearest]
    rfl
  | finite neg mant exp =>
    by_cases hmant : mant = 0
    · subst hmant
      have hdigit : ∀ c ∈ ([0x30] : Bytes), isDigit c = true := List.forall_mem_singleton.mpr rfl
      refine ⟨⟨neg, [0x30], [0x30], none, hdigit, hdigit, List.cons_ne_nil _ _, fun _ => rfl⟩, ?_, ?_⟩
      · rw [valueToString_finite]
        cases neg <;> rfl
      · rw [Numeral.value_real (.inl (List.cons_ne_nil _ _))]
        rfl
    obtain ⟨hn, hmax⟩ := h.resolve_left hmant
    obtain ⟨hden, hscale⟩ := scale_spec (b := 2) two_pos exp mant one_pos
    have hpos := Rounding.two_zpow_pos (K := ℚ) exp
    rw [Nat.cast_one, div_one, Nat.cast_ofNat] at hscale
    have hlow : (10 : ℚ) ^ (-324 : Int) ≤ mant * 2 ^ exp := by
      have hone : (1 : ℚ) ≤ mant := by exact_mod_cast Nat.one_le_iff_ne_zero.mpr hmant
      have hmin : (2 : ℚ) ^ 1074 ≤ 10 ^ 324 := by
        exact_mod_cast (by decide +kernel : 2 ^ 1074 ≤ 10 ^ 324)
      calc (10 : ℚ) ^ (-324 : Int) ≤ 2 ^ (-1074 : Int) := by
            rw [zpow_neg, zpow_neg]
            exact inv_anti₀ (by positivity) hmin
        _ ≤ 2 ^ exp := zpow_le_zpow_right₀ one_le_two hn.min_le
        _ ≤ mant * 2 ^ exp := le_mul_of_one_le_left hpos.le hone
    have hhigh : (mant : ℚ) * 2 ^ exp < 10 ^ (309 : Int) := by
      have hlt : (mant : ℚ) < 2 ^ 53 := by exact_mod_cast hn.lt
      calc (mant : ℚ) * 2 ^ exp < 2 ^ 53 * 2 ^ exp := mul_lt_mul_of_pos_right hlt hpos
        _ ≤ 2 ^ 53 * 2 ^ (971 : Int) :=
          mul_le_mul_of_nonneg_left (zpow_le_zpow_right₀ one_le_two hmax) (by positivity)
        _ < 10 ^ (309 : Int) := by
          exact_mod_cast (by decide +kernel : 2 ^ 53 * 2 ^ 971 < 10 ^ 309)
    rw [← hscale] at hlow hhigh
    obtain ⟨x, hx, hm, hw⟩ := significand_spec hden hlow hhigh
    rw [hscale] at hx hw
    obtain ⟨n, hneg, htext, hreal, hmag⟩ := exists_numeral neg (Prod.mk.eta).symm hm
    have hnear : Near 52 mant exp n.magnitude := by
      rw [hmag]
      exact Rounding.near_of_decimal hn.lt (by norm_num) hx hw
    refine ⟨n, ?_, ?_⟩
    · rw [Numeral.text_eq, hneg, htext, valueToString_finite, if_neg hmant]
    · rw [Numeral.value_real hreal, n.nearest_eq hn hmax hmant hnear, hneg,
        canonical_of_ne hmant]

/-- Seventeen digits are enough: what is printed for a double is read as the same double. -/
theorem read_valueToString {d : Double} (h : d.Representable) (hnan : d ≠ nan) :
    read d.valueToString = some d.canonical := by
  obtain ⟨n, htext, hvalue⟩ := exists_spelling h hnan
  have hnearest : n.nearest = d.canonical := by
    unfold Numeral.value at hvalue
    dsimp only at hvalue
    split at hvalue
    · exact Json.Value.real.inj hvalue
    -- an integer that fits is not a double
    split at hvalue
    · split at hvalue
      · exact nomatch hvalue
      · exact Json.Value.real.inj hvalue
    split at hvalue
    · exact nomatch hvalue
    split at hvalue
    · exact nomatch hvalue
    · exact Json.Value.real.inj hvalue
  rw [← htext, n.read_text, hnearest]

/-- The smallest and the largest double. -/
theorem read_valueToString_extremes :
    read (finite false 1 (-1074)).valueToString = some (finite false 1 (-1074)) ∧
      read (finite true (2 ^ 53 - 1) 971).valueToString = some (finite true (2 ^ 53 - 1) 971) := by
  have hsmall : (finite false 1 (-1074)).Representable := .inr ⟨⟨by decide, by decide, .inr rfl⟩, by decide⟩
  have hlarge : (finite true (2 ^ 53 - 1) 971).Representable :=
    .inr ⟨⟨by decide, by decide, .inl (by decide)⟩, by decide⟩
  exact ⟨read_valueToString hsmall nofun, read_valueToString hlarge nofun⟩

end Double

end RocksdbService
