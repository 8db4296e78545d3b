import Mathlib.Data.List.TakeWhile
import RocksdbService.Json.Writer
import RocksdbService.Verify.Printing

/-! # What the writer makes of a string

A string is written between quotes, each byte as it is, as a short escape or as part of a code point
(`valueToQuotedStringN_eq`). That takes at most six bytes for one (`escapeLoop_length`), and none of them
is NUL (`escapeLoop_ne_zero`). -/

namespace RocksdbService.Json

/-- The letter of the short escape for a byte. -/
def shortEscape : Byte → Option Byte
  | 0x22 => some 0x22
  | 0x5c => some 0x5c
  | 0x08 => some 0x62
  | 0x0c => some 0x66
  | 0x0a => some 0x6e
  | 0x0d => some 0x72
  | 0x09 => some 0x74
  | _ => none

@[simp] theorem escapeLoop_nil (skip : Nat) : escapeLoop skip [] = [] := by cases skip <;> rfl

@[simp] theorem escapeLoop_skip (skip : Nat) (c : Byte) (s : Bytes) :
    escapeLoop (skip + 1) (c :: s) = escapeLoop skip s := rfl

theorem escapeLoop_short {c e : Byte} (h : shortEscape c = some e) (s : Bytes) :
    escapeLoop 0 (c :: s) = 0x5c :: e :: escapeLoop 0 s := by
  unfold shortEscape at h
  split at h <;> cases h <;> rfl

theorem escapeLoop_codepoint {c : Byte} (h : shortEscape c = none) (s : Bytes) :
    escapeLoop 0 (c :: s) =
      escapeCodepoint (utf8ToCodepoint c s).1 ++ escapeLoop (utf8ToCodepoint c s).2 s := by
  unfold shortEscape at h
  split at h <;> cases h
  rw [escapeLoop] <;> assumption

theorem shortEscape_cases {c e : Byte} (h : shortEscape c = some e) :
    c = 0x22 ∨ c = 0x5c ∨ c < 0x20 := by
  unfold shortEscape at h
  split at h <;> cases h <;> decide

theorem utf8ToCodepoint_ascii {c : Byte} (h : c.toNat < 0x80) (s : Bytes) :
    utf8ToCodepoint c s = (c.toNat, 0) := if_pos h

/-- A text that does not require escaping is written as it is. -/
theorem escapeLoop_plain {s : Bytes} (h : doesAnyCharRequireEscaping s = false) :
    escapeLoop 0 s = s := by
  induction s with
  | nil => rfl
  | cons c s ih =>
    rw [doesAnyCharRequireEscaping, List.any_cons, Bool.or_eq_false_iff] at h
    obtain ⟨hc, hs⟩ := h
    simp only [Bool.or_eq_false_iff, decide_eq_false_iff_not, UInt8.lt_iff_toNat_lt, Nat.not_lt,
      UInt8.reduceToNat] at hc
    obtain ⟨⟨⟨hbackslash, hquote⟩, hlow⟩, hhigh⟩ := hc
    have hshort : shortEscape c = none := by
      cases he : shortEscape c with
      | none => rfl
      | some e =>
        rcases shortEscape_cases he with h | h | h
        · exact absurd h hquote
        · exact absurd h hbackslash
        · exact absurd (UInt8.lt_iff_toNat_lt.mp h) (Nat.not_lt.mpr hlow)
    rw [escapeLoop_codepoint hshort, utf8ToCodepoint_ascii (by omega), ih hs]
    dsimp only
    rw [escapeCodepoint, if_neg (by omega), if_pos (by omega)]
    simp

theorem takeWhile_plain {s : Bytes} (h : doesAnyCharRequireEscaping s = false) :
    s.takeWhile (· ≠ 0) = s := by
  refine List.takeWhile_eq_self_iff.mpr fun c hc => decide_eq_true ?_
  rintro rfl
  exact List.any_eq_false.mp h 0 hc (by decide)

theorem valueToQuotedStringN_eq (s : Bytes) :
    valueToQuotedStringN s = 0x22 :: escapeLoop 0 s ++ [0x22] := by
  unfold valueToQuotedStringN
  split
  · rfl
  · next h =>
    have h := Bool.not_eq_true _ ▸ h
    rw [takeWhile_plain h, escapeLoop_plain h]

/-! ## Code points -/

theorem and_mask (mask n : Nat) (h : mask + 1 = 2 ^ n) (a : Nat) : a &&& mask = a % (mask + 1) := by
  rw [h, ← Nat.and_two_pow_sub_one_eq_mod, ← h, Nat.add_sub_cancel]

theorem shift_or (m n : Nat) (h : m = 2 ^ n) (a : Nat) {b : Nat} (hb : b < m) :
    a <<< n ||| b = a * m + b := by
  rw [← Nat.shiftLeft_add_eq_or_of_lt (h ▸ hb), Nat.shiftLeft_eq, h]

theorem twoBytes_eq (a b : Nat) : (a &&& 0x1f) <<< 6 ||| b &&& 0x3f = a % 32 * 64 + b % 64 := by
  rw [and_mask 0x1f 5 rfl, and_mask 0x3f 6 rfl, shift_or 64 6 rfl _ (Nat.mod_lt _ (by decide))]

theorem threeBytes_eq (a b c : Nat) :
    (a &&& 0x0f) <<< 12 ||| (b &&& 0x3f) <<< 6 ||| c &&& 0x3f =
      a % 16 * 4096 + (b % 64 * 64 + c % 64) := by
  rw [and_mask 0x0f 4 rfl, and_mask 0x3f 6 rfl, and_mask 0x3f 6 rfl, Nat.or_assoc,
    shift_or 64 6 rfl _ (Nat.mod_lt _ (by decide)), shift_or 4096 12 rfl _ (by omega)]

theorem fourBytes_eq (a b c d : Nat) :
    (a &&& 0x07) <<< 18 ||| (b &&& 0x3f) <<< 12 ||| (c &&& 0x3f) <<< 6 ||| d &&& 0x3f =
      a % 8 * 262144 + (b % 64 * 4096 + (c % 64 * 64 + d % 64)) := by
  rw [and_mask 0x07 3 rfl, and_mask 0x3f 6 rfl, and_mask 0x3f 6 rfl, and_mask 0x3f 6 rfl, Nat.or_assoc,
    Nat.or_assoc, shift_or 64 6 rfl _ (Nat.mod_lt _ (by decide)), shift_or 4096 12 rfl _ (by omega),
    shift_or 262144 18 rfl _ (by omega)]

/-- What the writer reads at a byte. -/
inductive Reads (c : Byte) (s : Bytes) : Nat × Nat → Prop
  | ascii (h : c.toNat < 0x80) : Reads c s (c.toNat, 0)
  | two {s₁ : Byte} {t : Bytes} (h : 0x80 ≤ c.toNat ∧ c.toNat < 0xe0) (hs : s = s₁ :: t)
    (hcp : 0x80 ≤ c.toNat % 32 * 64 + s₁.toNat % 64) :
    Reads c s (c.toNat % 32 * 64 + s₁.toNat % 64, 1)
  | three {s₁ s₂ : Byte} {t : Bytes} (h : 0xe0 ≤ c.toNat ∧ c.toNat < 0xf0) (hs : s = s₁ :: s₂ :: t)
    {cp : Nat} (hcp : cp = c.toNat % 16 * 4096 + (s₁.toNat % 64 * 64 + s₂.toNat % 64))
    (hrange : 0x800 ≤ cp) (hsurrogate : ¬ (0xd800 ≤ cp ∧ cp ≤ 0xdfff)) : Reads c s (cp, 2)
  | four {s₁ s₂ s₃ : Byte} {t : Bytes} (h : 0xf0 ≤ c.toNat ∧ c.toNat < 0xf8)
    (hs : s = s₁ :: s₂ :: s₃ :: t) {cp : Nat}
    (hcp : cp = c.toNat % 8 * 262144 + (s₁.toNat % 64 * 4096 + (s₂.toNat % 64 * 64 + s₃.toNat % 64)))
    (hrange : 0x10000 ≤ cp) : Reads c s (cp, 3)
  | replaced {taken : Nat} (h : 0x80 ≤ c.toNat) (htaken : taken ≤ s.length) :
    Reads c s (replacementCharacter, taken)

theorem utf8ToCodepoint_reads (c : Byte) (s : Bytes) : Reads c s (utf8ToCodepoint c s) := by
  unfold utf8ToCodepoint
  dsimp only
  split
  · next h => exact .ascii h
  next h1 =>
  have h1 : 0x80 ≤ c.toNat := Nat.not_lt.mp h1
  split
  · next h2 =>
    split
    · next s₁ t =>
      rw [twoBytes_eq]
      split
      · exact .replaced h1 (by simp)
      · next hcp => exact .two ⟨h1, h2⟩ rfl (Nat.not_lt.mp hcp)
    · exact .replaced h1 (Nat.zero_le _)
  next h2 =>
  split
  · next h3 =>
    split
    · next s₁ s₂ t =>
      rw [threeBytes_eq]
      split
      · exact .replaced h1 (by simp)
      split
      · exact .replaced h1 (by simp)
      · next hs hr => exact .three ⟨Nat.not_lt.mp h2, h3⟩ rfl rfl (Nat.not_lt.mp hr) hs
    · exact .replaced h1 (Nat.zero_le _)
  next h3 =>
  split
  · next h4 =>
    split
    · next s₁ s₂ s₃ t =>
      rw [fourBytes_eq]
      split
      · exact .replaced h1 (by simp)
      · next hr => exact .four ⟨Nat.not_lt.mp h3, h4⟩ rfl rfl (Nat.not_lt.mp hr)
    · exact .replaced h1 (Nat.zero_le _)
  · exact .replaced h1 (Nat.zero_le _)

/-- The writer moves past bytes of the text only. -/
theorem Reads.taken_le {c : Byte} {s : Bytes} {p : Nat × Nat} (h : Reads c s p) : p.2 ≤ s.length := by
  cases h with
  | ascii h => exact Nat.zero_le _
  | two _ hs => simp [hs]
  | three _ hs => simp [hs]
  | four _ hs => simp [hs]
  | replaced _ htaken => exact htaken

/-! ## Lengths -/

theorem escapeCodepoint_length (cp : Nat) :
    (escapeCodepoint cp).length ≤ if cp < 0x10000 then 6 else 12 := by
  unfold escapeCodepoint
  split
  · next h => rw [if_pos (by omega)]; exact Nat.le_refl 6
  split
  · next h => rw [if_pos (by omega)]; exact Nat.le_of_ble_eq_true rfl
  split
  · exact Nat.le_refl 6
  · exact Nat.le_refl 12

/-- A code point takes at most six bytes for each byte that the writer moves past. -/
theorem Reads.length_le {c : Byte} {s : Bytes} {p : Nat × Nat} (h : Reads c s p) :
    (escapeCodepoint p.1).length ≤ 6 * (p.2 + 1) := by
  have hlen := escapeCodepoint_length p.1
  cases h with
  | ascii h =>
    rw [if_pos (by omega)] at hlen
    exact hlen
  | two h _ _ =>
    rw [if_pos (by omega)] at hlen
    omega
  | three h _ hcp =>
    rw [if_pos (by omega)] at hlen
    omega
  | four =>
    split at hlen <;> omega
  | replaced =>
    rw [if_pos (show replacementCharacter < 0x10000 by decide)] at hlen
    omega

theorem escapeLoop_length (skip : Nat) (s : Bytes) :
    (escapeLoop skip s).length ≤ 6 * (s.length - skip) := by
  induction s generalizing skip with
  | nil => simp
  | cons c s ih =>
    cases skip with
    | succ skip =>
      rw [escapeLoop_skip, List.length_cons, Nat.add_sub_add_right]
      exact ih skip
    | zero =>
      cases hshort : shortEscape c with
      | some e =>
        have := ih 0
        rw [escapeLoop_short hshort]
        simp only [List.length_cons]
        omega
      | none =>
        have hreads := utf8ToCodepoint_reads c s
        have hlen := hreads.length_le
        have htaken := hreads.taken_le
        have := ih (utf8ToCodepoint c s).2
        rw [escapeLoop_codepoint hshort, List.length_append, List.length_cons]
        omega

/-! ## No NUL -/

theorem hexDigit_ne_zero {n : Nat} (h : n < 16) : hexDigit n ≠ 0 := by
  revert n
  decide

theorem appendHex_ne_zero (ch : Nat) : ∀ b ∈ appendHex ch, b ≠ 0 := by
  have hbyte : ∀ x : Nat, (x &&& 0xff) / 16 < 16 ∧ (x &&& 0xff) % 16 < 16 := by
    intro x
    rw [and_mask 0xff 8 rfl]
    omega
  intro b hb
  simp only [appendHex, toHex16Bit, List.mem_cons, List.not_mem_nil, or_false] at hb
  rcases hb with rfl | rfl | rfl | rfl | rfl | rfl
  · decide
  · decide
  · exact hexDigit_ne_zero (hbyte _).1
  · exact hexDigit_ne_zero (hbyte _).2
  · exact hexDigit_ne_zero (hbyte _).1
  · exact hexDigit_ne_zero (hbyte _).2

theorem escapeCodepoint_ne_zero (cp : Nat) : ∀ b ∈ escapeCodepoint cp, b ≠ 0 := by
  unfold escapeCodepoint
  split
  · exact appendHex_ne_zero cp
  split
  · next h1 h2 =>
    intro b hb h0
    rw [List.mem_singleton.mp hb] at h0
    have hcp : cp % 256 = 0 := (UInt8.toNat_ofNat' ..).symm.trans (congrArg UInt8.toNat h0)
    omega
  split
  · exact appendHex_ne_zero cp
  · exact List.forall_mem_append.mpr ⟨appendHex_ne_zero _, appendHex_ne_zero _⟩

theorem shortEscape_ne_zero {c e : Byte} (h : shortEscape c = some e) : e ≠ 0 := by
  unfold shortEscape at h
  split at h <;> cases h <;> decide

theorem escapeLoop_ne_zero (skip : Nat) (s : Bytes) : ∀ b ∈ escapeLoop skip s, b ≠ 0 := by
  induction s generalizing skip with
  | nil => simp
  | cons c s ih =>
    cases skip with
    | succ skip => exact ih skip
    | zero =>
      cases hshort : shortEscape c with
      | some e =>
        rw [escapeLoop_short hshort]
        refine List.forall_mem_cons.mpr ⟨by decide, List.forall_mem_cons.mpr ⟨?_, ih 0⟩⟩
        exact shortEscape_ne_zero hshort
      | none =>
        rw [escapeLoop_codepoint hshort]
        exact List.forall_mem_append.mpr ⟨escapeCodepoint_ne_zero _, ih _⟩

end RocksdbService.Json
