import RocksdbService.Verify.Escaping

/-! # UTF-8

Where the bytes are the UTF-8 encodings of characters, the writer reads exactly these characters
(`utf8ToCodepoint_encode`), and the reader makes of each the same bytes again
(`codePointToUTF8_toNat`). -/

namespace RocksdbService.Json

open OurReader

/-- The UTF-8 encoding of a text. -/
def utf8 (cs : List Char) : Bytes := cs.flatMap String.utf8EncodeChar

/-- Well-formed UTF-8. -/
def IsUtf8 (s : Bytes) : Prop := ∃ cs, s = utf8 cs

@[simp] theorem utf8_cons (c : Char) (cs : List Char) :
    utf8 (c :: cs) = String.utf8EncodeChar c ++ utf8 cs := rfl

theorem utf8EncodeChar_eq (c : Char) : String.utf8EncodeChar c =
    if c.toNat ≤ 0x7f then [c.toNat.toUInt8]
    else if c.toNat ≤ 0x7ff then
      [(c.toNat / 64 % 32 + 0xc0).toUInt8, (c.toNat % 64 + 0x80).toUInt8]
    else if c.toNat ≤ 0xffff then
      [(c.toNat / 4096 % 16 + 0xe0).toUInt8, (c.toNat / 64 % 64 + 0x80).toUInt8,
        (c.toNat % 64 + 0x80).toUInt8]
    else
      [(c.toNat / 262144 % 8 + 0xf0).toUInt8, (c.toNat / 4096 % 64 + 0x80).toUInt8,
        (c.toNat / 64 % 64 + 0x80).toUInt8, (c.toNat % 64 + 0x80).toUInt8] := rfl

/-- The code points that characters have. -/
theorem toNat_valid (c : Char) : c.toNat < 0xd800 ∨ 0xdfff < c.toNat ∧ c.toNat < 0x110000 := c.valid

/-! ## The reader -/

theorem or_mask (mask n : Nat) (h : mask + 1 = 2 ^ n) {lead a : Nat} (hlead : lead = a * (mask + 1))
    (x : Nat) : lead ||| mask &&& x = x % (mask + 1) + lead := by
  have hmod : x % (mask + 1) < mask + 1 := Nat.mod_lt _ (Nat.succ_pos mask)
  have hshift : lead = a <<< n := by rw [Nat.shiftLeft_eq, ← h, hlead]
  rw [Nat.and_comm, and_mask mask n h, hshift, shift_or _ n h a hmod, ← hshift, ← hlead, Nat.add_comm]

theorem codePointToUTF8_toNat (c : Char) : codePointToUTF8 c.toNat = String.utf8EncodeChar c := by
  have hle : c.toNat ≤ 0x10ffff := by
    have := toNat_valid c
    omega
  have htwo : ∀ x, 0xc0 ||| 0x1f &&& x = x % 32 + 0xc0 := or_mask 0x1f 5 rfl (a := 6) rfl
  have hthree : ∀ x, 0xe0 ||| 0xf &&& x = x % 16 + 0xe0 := or_mask 0xf 4 rfl (a := 14) rfl
  have hfour : ∀ x, 0xf0 ||| 0x7 &&& x = x % 8 + 0xf0 := or_mask 0x7 3 rfl (a := 30) rfl
  have hnext : ∀ x, 0x80 ||| 0x3f &&& x = x % 64 + 0x80 := or_mask 0x3f 6 rfl (a := 2) rfl
  rw [utf8EncodeChar_eq]
  unfold codePointToUTF8
  simp only [htwo, hthree, hfour, hnext, Nat.shiftRight_eq_div_pow, if_pos hle, Nat.reducePow]

/-! ## The writer -/

/-- What the writer reads where a character begins. -/
theorem utf8ToCodepoint_encode (c : Char) (s : Bytes) :
    ∃ b t, String.utf8EncodeChar c = b :: t ∧ utf8ToCodepoint b (t ++ s) = (c.toNat, t.length) := by
  have hvalid := toNat_valid c
  have hbyte : ∀ {x : Nat}, x < 256 → x.toUInt8.toNat = x := fun h => UInt8.toNat_ofNat_of_lt' h
  generalize hb : String.utf8EncodeChar c = bs
  rw [utf8EncodeChar_eq] at hb
  generalize c.toNat = n at hb hvalid ⊢
  split at hb
  · next h =>
    subst hb
    refine ⟨_, _, rfl, ?_⟩
    rw [utf8ToCodepoint_ascii] <;> rw [hbyte (by omega)]
    · rfl
    · omega
  split at hb
  · next h =>
    subst hb
    refine ⟨_, _, rfl, ?_⟩
    unfold utf8ToCodepoint
    simp only [List.cons_append, List.nil_append]
    rw [hbyte (by omega), hbyte (by omega), if_neg (by omega), if_pos (by omega), twoBytes_eq,
      if_neg (by omega)]
    simp only [List.length_cons, List.length_nil, Prod.mk.injEq, and_true]
    omega
  split at hb
  · next h =>
    subst hb
    refine ⟨_, _, rfl, ?_⟩
    unfold utf8ToCodepoint
    simp only [List.cons_append, List.nil_append]
    rw [hbyte (by omega), hbyte (by omega), hbyte (by omega), if_neg (by omega), if_neg (by omega),
      if_pos (by omega), threeBytes_eq, if_neg (by omega), if_neg (by omega)]
    simp only [List.length_cons, List.length_nil, Prod.mk.injEq, and_true]
    omega
  · next h =>
    subst hb
    refine ⟨_, _, rfl, ?_⟩
    unfold utf8ToCodepoint
    simp only [List.cons_append, List.nil_append]
    rw [hbyte (by omega), hbyte (by omega), hbyte (by omega), hbyte (by omega), if_neg (by omega),
      if_neg (by omega), if_neg (by omega), if_pos (by omega), fourBytes_eq, if_neg (by omega)]
    simp only [List.length_cons, List.length_nil, Prod.mk.injEq, and_true]
    omega

end RocksdbService.Json
