import Mathlib.Data.List.TakeDrop
import RocksdbService.Json.Grammar
import RocksdbService.Verify.Unescaping

/-! # The reader on the tokens of JSON

The reader takes each string and each number of the standard grammar as one token, up to where its
text ends (`readToken_text`, `Numeral.readToken_text`), and decodes it to what it stands for
(`Quoted.decodeString_text`, `Numeral.decodeNumber_text`). -/

namespace RocksdbService.Json

open OurReader

/-! ## Strings -/

theorem hexValue_byte (d : HexDigit) : hexValue d.byte = some d.value.val := by
  obtain ⟨value, upper⟩ := d
  revert value upper
  decide

namespace Hex4

theorem byte_plain (d : HexDigit) : d.byte ≠ 0x5c ∧ d.byte ≠ 0x22 := by
  obtain ⟨value, upper⟩ := d
  revert value upper
  decide

theorem text_plain (h : Hex4) : ∀ b ∈ h.text, b ≠ 0x5c ∧ b ≠ 0x22 := by
  intro b hb
  simp only [text, List.mem_cons, List.not_mem_nil, or_false] at hb
  rcases hb with rfl | rfl | rfl | rfl <;> exact byte_plain _

theorem decode (h : Hex4) (s : Bytes) :
    decodeUnicodeEscapeSequence (h.text ++ s) = .ok h.value := by
  have htake : (h.text ++ s).take 4 = h.text := rfl
  unfold decodeUnicodeEscapeSequence
  rw [htake, if_neg (by simp [text]), text]
  simp only [List.mapM_cons, List.mapM_nil, hexValue_byte]
  change Except.ok ((((0 * 16 + h.a.value.val) * 16 + h.b.value.val) * 16 + h.c.value.val) * 16 +
    h.d.value.val) = _
  rw [Nat.zero_mul, Nat.zero_add]
  rfl

end Hex4

theorem Escape.simpleEscape_letter (e : Escape) :
    e.letter ≠ 0x75 ∧ simpleEscape e.letter = some e.byte := by
  cases e <;> decide

namespace Piece

theorem decodeChars_text (p : Piece) (s : Bytes) :
    decodeChars 0 (p.text ++ s) = (do return p.bytes ++ (← decodeChars 0 s)) := by
  cases p with
  | raw c h => exact decodeChars_char h.2.1 h.2.2 s
  | escape e =>
    obtain ⟨hne, hsimple⟩ := e.simpleEscape_letter
    exact decodeChars_escape hne hsimple s
  | unicode digits c h =>
    have hvalid := toNat_valid c
    have hpoint : decodeUnicodeCodePoint (digits.text ++ s) = .ok (c.toNat, 4) := by
      unfold decodeUnicodeCodePoint
      rw [digits.decode, Outcome.ok_bind, h, if_neg (by omega)]
      rfl
    change decodeChars 0 (0x5c :: 0x75 :: (digits.text ++ s)) = _
    rw [decodeChars_unicode, hpoint, Outcome.ok_bind]
    dsimp only
    rw [decodeChars_drop, codePointToUTF8_toNat]
    rfl
  | pair high low c hc hhigh hlow =>
    have hvalid := toNat_valid c
    have hpoint : decodeUnicodeCodePoint (high.text ++ 0x5c :: 0x75 :: (low.text ++ s)) =
        .ok (c.toNat, 10) := by
      have hdrop : (high.text ++ 0x5c :: 0x75 :: (low.text ++ s)).drop 4 =
          0x5c :: 0x75 :: (low.text ++ s) := rfl
      have htake : (0x5c :: 0x75 :: (low.text ++ s)).take 2 = [0x5c, 0x75] := rfl
      unfold decodeUnicodeCodePoint
      rw [high.decode, Outcome.ok_bind, if_pos (by omega)]
      dsimp only
      rw [hdrop, List.drop_succ_cons, List.drop_succ_cons, List.drop_zero, low.decode, htake,
        if_neg (by simp [Hex4.text]), if_pos rfl, Outcome.ok_bind, and_mask 0x3ff 10 rfl,
        and_mask 0x3ff 10 rfl, Nat.shiftLeft_eq]
      refine congrArg Except.ok (Prod.ext ?_ rfl)
      dsimp only
      omega
    change decodeChars 0 (0x5c :: 0x75 :: (high.text ++ 0x5c :: 0x75 :: (low.text ++ s))) = _
    rw [decodeChars_unicode, hpoint, Outcome.ok_bind]
    dsimp only
    rw [decodeChars_drop, codePointToUTF8_toNat]
    rfl

theorem readString_text (p : Piece) (s : Bytes) : readString (p.text ++ s) =
    ((readString s).1, p.text ++ (readString s).2.1, (readString s).2.2) := by
  cases p with
  | raw c h => exact readString_char h.2.2 h.2.1 s
  | escape e => exact readString_escape e.letter s
  | unicode digits c h =>
    change readString (0x5c :: 0x75 :: (digits.text ++ s)) = _
    rw [readString_escape, readString_plain digits.text_plain]
    rfl
  | pair high low c hc hhigh hlow =>
    change readString (0x5c :: 0x75 :: (high.text ++ 0x5c :: 0x75 :: (low.text ++ s))) = _
    rw [readString_escape, readString_plain high.text_plain, readString_escape,
      readString_plain low.text_plain]
    rfl

theorem decodeChars_pieces (ps : List Piece) :
    decodeChars 0 (ps.flatMap text) = .ok (ps.flatMap bytes) := by
  induction ps with
  | nil => rfl
  | cons p ps ih =>
    rw [List.flatMap_cons, decodeChars_text, ih]
    rfl

theorem readString_pieces (ps : List Piece) (rest : Bytes) :
    readString (ps.flatMap text ++ 0x22 :: rest) = (true, ps.flatMap text ++ [0x22], rest) := by
  induction ps with
  | nil => exact readString_quote rest
  | cons p ps ih => rw [List.flatMap_cons, List.append_assoc, readString_text, ih, List.append_assoc]

end Piece

namespace Quoted

variable {limit : Nat}

theorem decodeString_text (s : Quoted limit) : decodeString s.text = .ok s.bytes := by
  rw [decodeString, text, List.cons_append, List.tail_cons, List.dropLast_concat,
    Piece.decodeChars_pieces]
  rfl

end Quoted

/-! ## White space and tokens -/

theorem Blank.skipSpaces (w : Blank) (s : Bytes) :
    OurReader.skipSpaces (w.bytes ++ s) = OurReader.skipSpaces s := by
  obtain ⟨bytes, blank⟩ := w
  unfold OurReader.skipSpaces
  induction bytes with
  | nil => rfl
  | cons c bytes ih =>
    obtain ⟨hc, hbytes⟩ := List.forall_mem_cons.mp blank
    rw [List.cons_append, List.dropWhile_cons_of_pos hc]
    exact ih hbytes

theorem readToken_blank (w : Blank) (s : Bytes) : readToken (w.bytes ++ s) = readToken s := by
  unfold readToken
  rw [w.skipSpaces]

theorem readToken_text {limit : Nat} (q : Quoted limit) (rest : Bytes) :
    readToken (q.text ++ rest) = (true, ⟨.string, q.text⟩, rest) := by
  have hread : ∀ s, readToken (0x22 :: s) = ((readString s).1,
      ⟨if (readString s).1 then .string else .error, 0x22 :: (readString s).2.1⟩,
        (readString s).2.2) := fun _ => rfl
  rw [Quoted.text, List.append_assoc, List.cons_append, List.cons_append, List.nil_append, hread,
    Piece.readString_pieces]
  rfl

theorem readLiteral_append (type : TokenType) (pattern s : Bytes) :
    readLiteral type pattern (pattern ++ s) = (true, ⟨type, []⟩, s) := by
  have hmatch : matchPattern pattern (pattern ++ s) = (true, s) := by
    rw [matchPattern, if_pos (List.isPrefixOf_iff_prefix.mpr (List.prefix_append _ _)),
      List.drop_left]
  rw [readLiteral, hmatch]
  rfl

theorem readToken_null (s : Bytes) : readToken (ascii "null" ++ s) = (true, ⟨.null, []⟩, s) := by
  have htext : ascii "null" = 0x6e :: ascii "ull" := by decide
  rw [htext, ← readLiteral_append .null (ascii "ull") s]
  rfl

theorem readToken_true (s : Bytes) : readToken (ascii "true" ++ s) = (true, ⟨.true, []⟩, s) := by
  have htext : ascii "true" = 0x74 :: ascii "rue" := by decide
  rw [htext, ← readLiteral_append .true (ascii "rue") s]
  rfl

theorem readToken_false (s : Bytes) : readToken (ascii "false" ++ s) = (true, ⟨.false, []⟩, s) := by
  have htext : ascii "false" = 0x66 :: ascii "alse" := by decide
  rw [htext, ← readLiteral_append .false (ascii "alse") s]
  rfl

/-! ## Numbers -/

/-- No digit comes next. -/
def NoDigit (s : Bytes) : Prop := ∀ c ∈ s.head?, isDigit c = false

/-- What may follow a number: nothing that continues it. -/
def Ends (s : Bytes) : Prop :=
  ∀ c ∈ s.head?, isDigit c = false ∧ c ≠ 0x2e ∧ c ≠ 0x65 ∧ c ≠ 0x45

theorem Ends.noDigit {s : Bytes} (h : Ends s) : NoDigit s := fun c hc => (h c hc).1

theorem span_digits {ds s : Bytes} (hds : ∀ c ∈ ds, isDigit c = true) (hs : NoDigit s) :
    (ds ++ s).takeWhile isDigit = ds ∧ (ds ++ s).dropWhile isDigit = s := by
  rw [List.takeWhile_append_of_pos hds, List.dropWhile_append_of_pos hds]
  cases s with
  | nil => exact ⟨List.append_nil ds, rfl⟩
  | cons c s =>
    have hc : ¬ isDigit c = true := by rw [hs c rfl]; exact Bool.false_ne_true
    rw [List.takeWhile_cons_of_neg hc, List.dropWhile_cons_of_neg hc, List.append_nil]
    exact ⟨rfl, rfl⟩

theorem not_isSpace_digit {c : Byte} (hc : isDigit c = true) : isSpace c = false := by
  rw [← Bool.not_eq_true]
  intro h
  simp only [isSpace, Bool.or_eq_true, decide_eq_true_eq] at h
  rcases h with ((rfl | rfl) | rfl) | rfl <;> exact absurd hc (by decide)

theorem readToken_digit {c : Byte} (hc : isDigit c = true) (s : Bytes) :
    readToken (c :: s) = (true, ⟨.number, c :: (readNumber s).1⟩, (readNumber s).2) := by
  have hspaces : skipSpaces (c :: s) = c :: s :=
    List.dropWhile_cons_of_neg (by rw [not_isSpace_digit hc]; exact Bool.false_ne_true)
  unfold readToken
  rw [hspaces]
  dsimp only
  split
  all_goals first
    | exact absurd hc (by decide)
    | exact if_pos hc

theorem Exponent.sign_cases (e : Exponent) (s : Bytes) :
    readExponentSign (e.sign ++ (e.digits ++ s)) = (e.sign, e.digits ++ s) := by
  rcases e.hsign with h | h | h
  · obtain ⟨d, ds, hds⟩ := List.exists_cons_of_ne_nil e.hne
    have hd := e.hdigits d (hds ▸ List.mem_cons_self)
    rw [h, List.nil_append, hds, List.cons_append]
    unfold readExponentSign
    split
    · next heq => cases heq; exact absurd hd (by decide)
    · next heq => cases heq; exact absurd hd (by decide)
    · rfl
  · rw [h]; rfl
  · rw [h]; rfl

theorem Exponent.readExponent_text (e : Exponent) {s : Bytes} (hs : NoDigit s) :
    OurReader.readExponent (e.text ++ s) = (e.text, s) := by
  obtain ⟨htake, hdrop⟩ := span_digits e.hdigits hs
  rw [Exponent.text, List.cons_append, List.cons_append, List.append_assoc, OurReader.readExponent,
    if_pos e.hmarker, e.sign_cases]
  dsimp only
  rw [htake, hdrop]
  rfl

/-- The number that digits spell behind others that spell `n`. -/
def digitsFrom (n : Nat) (ds : Bytes) : Nat := ds.foldl (fun n c => 10 * n + (c.toNat - 0x30)) n

theorem digitsFrom_nil (n : Nat) : digitsFrom n [] = n := rfl

theorem digitsFrom_cons (n : Nat) (c : Byte) (ds : Bytes) :
    digitsFrom n (c :: ds) = digitsFrom (10 * n + (c.toNat - 0x30)) ds := by
  rw [digitsFrom, List.foldl_cons, digitsFrom]

theorem le_digitsFrom (n : Nat) (ds : Bytes) : n ≤ digitsFrom n ds := by
  induction ds generalizing n with
  | nil => exact Nat.le_refl n
  | cons c ds ih =>
    have := ih (10 * n + (c.toNat - 0x30))
    rw [digitsFrom_cons]
    omega

theorem readSign_digits {ds : Bytes} (hds : ∀ c ∈ ds, isDigit c = true) (hne : ds ≠ []) (s : Bytes) :
    Double.readSign (ds ++ s) = (false, ds ++ s) := by
  obtain ⟨d, ds, rfl⟩ := List.exists_cons_of_ne_nil hne
  have hd := hds d List.mem_cons_self
  rw [List.cons_append]
  unfold Double.readSign
  split
  · next heq => cases heq; exact absurd hd (by decide)
  · next heq => cases heq; exact absurd hd (by decide)
  · rfl

theorem decodeNumber_unsigned {ds : Bytes} (hds : ∀ c ∈ ds, isDigit c = true) (hne : ds ≠ [])
    (s : Bytes) : decodeNumber (ds ++ s) =
      match decodeDigits 1844674407370955161 5 0 (ds ++ s) with
      | some value => .ok (if value ≤ 9223372036854775807 then .int value else .uint value)
      | none => decodeDouble (ds ++ s) := by
  obtain ⟨d, ds, rfl⟩ := List.exists_cons_of_ne_nil hne
  have hd := hds d List.mem_cons_self
  rw [List.cons_append]
  unfold decodeNumber
  split
  · next heq => cases heq; exact absurd hd (by decide)
  · rfl

namespace Exponent

theorem read_text (e : Exponent) : Double.readExponent e.text = some e.value := by
  have hsign : Double.readSign (e.sign ++ e.digits) = (decide (e.sign = [0x2d]), e.digits) := by
    rcases e.hsign with h | h | h
    · rw [h, List.nil_append, ← List.append_nil e.digits, readSign_digits e.hdigits e.hne]
      rfl
    · rw [h]; rfl
    · rw [h]; rfl
  obtain ⟨htake, -⟩ := span_digits e.hdigits (s := []) nofun
  rw [List.append_nil] at htake
  rw [text, List.cons_append, Double.readExponent, hsign]
  dsimp only
  rw [htake, if_neg e.hne, value]
  by_cases h : e.sign = [0x2d] <;> simp [h]

theorem read_getD (exp : Option Exponent) :
    Double.readExponent ((exp.map text).getD []) = some ((exp.map value).getD 0) := by
  cases exp with
  | none => rfl
  | some e => exact e.read_text

end Exponent

namespace Numeral

/-- What follows the digits before the point. -/
def tail (n : Numeral) : Bytes := Double.point n.frac ++ (n.exp.map Exponent.text).getD []

theorem text_eq (n : Numeral) : n.text = (if n.neg then [0x2d] else []) ++ (n.whole ++ n.tail) := by
  rw [text, tail, List.append_assoc, List.append_assoc]

theorem exponent_noDigit (exp : Option Exponent) {s : Bytes} (hs : Ends s) :
    NoDigit ((exp.map Exponent.text).getD [] ++ s) ∧
      ∀ c ∈ ((exp.map Exponent.text).getD [] ++ s).head?, c ≠ 0x2e := by
  cases exp with
  | none => exact ⟨hs.noDigit, fun c hc => (hs c hc).2.1⟩
  | some e =>
    have hhead : ((some e).map Exponent.text).getD [] ++ s = e.marker :: (e.sign ++ e.digits ++ s) := rfl
    rw [hhead]
    rcases e.hmarker with h | h <;> rw [h] <;> constructor <;> intro c hc <;> cases hc <;> decide

theorem tail_noDigit (n : Numeral) {s : Bytes} (hs : Ends s) : NoDigit (n.tail ++ s) := by
  rw [tail, List.append_assoc]
  unfold Double.point
  split
  · exact (exponent_noDigit n.exp hs).1
  · intro c hc
    cases hc
    rfl

theorem readFraction_text (n : Numeral) {s : Bytes} (hs : Ends s) :
    readFraction (n.tail ++ s) = (Double.point n.frac, (n.exp.map Exponent.text).getD [] ++ s) := by
  obtain ⟨hdigit, hpoint⟩ := exponent_noDigit n.exp hs
  rw [tail, List.append_assoc]
  unfold Double.point
  split
  · rw [List.nil_append]
    unfold readFraction
    split
    · next heq => rw [heq] at hpoint; exact absurd rfl (hpoint _ rfl)
    · rfl
  · obtain ⟨htake, hdrop⟩ := span_digits n.hfrac hdigit
    rw [List.cons_append, readFraction, htake, hdrop]

/-- The reader passes exactly the text of a number. -/
theorem readNumber_text (n : Numeral) {ds s : Bytes} (hds : ∀ c ∈ ds, isDigit c = true)
    (hs : Ends s) : readNumber (ds ++ n.tail ++ s) = (ds ++ n.tail, s) := by
  obtain ⟨htake, hdrop⟩ := span_digits hds (n.tail_noDigit hs)
  have hexp : OurReader.readExponent ((n.exp.map Exponent.text).getD [] ++ s) =
      ((n.exp.map Exponent.text).getD [], s) := by
    cases n.exp with
    | some e => exact e.readExponent_text hs.noDigit
    | none =>
      cases s with
      | nil => rfl
      | cons c s =>
        obtain ⟨-, -, hlower, hupper⟩ := hs c rfl
        exact if_neg (not_or.mpr ⟨hlower, hupper⟩)
  rw [List.append_assoc, readNumber, hdrop, readFraction_text n hs]
  dsimp only
  rw [hexp, htake, tail, List.append_assoc]

theorem readToken_text (n : Numeral) {s : Bytes} (hs : Ends s) :
    readToken (n.text ++ s) = (true, ⟨.number, n.text⟩, s) := by
  obtain ⟨c, ds, hwhole⟩ := List.exists_cons_of_ne_nil n.hne
  have hdigits := n.hwhole
  rw [hwhole] at hdigits
  obtain ⟨hc, hds⟩ := List.forall_mem_cons.mp hdigits
  rw [text_eq]
  split
  · have hread := n.readNumber_text n.hwhole hs
    have hsign : readSignedNumber 0x2d (n.whole ++ n.tail ++ s) =
        (true, ⟨.number, 0x2d :: (readNumber (n.whole ++ n.tail ++ s)).1⟩,
          (readNumber (n.whole ++ n.tail ++ s)).2) := by
      rw [hwhole]
      unfold readSignedNumber
      split
      · next heq => cases heq; exact absurd hc (by decide)
      · rfl
    change readSignedNumber 0x2d (n.whole ++ n.tail ++ s) = _
    rw [hsign, hread]
    rfl
  · have hread := n.readNumber_text hds hs
    rw [List.nil_append, hwhole, List.cons_append, List.cons_append, readToken_digit hc, hread]

/-- Digits are read as an integer that does not exceed the limit. -/
theorem decodeDigits_eq {threshold maxLastDigit value : Nat} {ds : Bytes} (ht : 0 < threshold)
    (hm : maxLastDigit ≤ 9) (hds : ∀ c ∈ ds, isDigit c = true)
    (hv : value ≤ 10 * threshold + maxLastDigit) :
    decodeDigits threshold maxLastDigit value ds =
      if digitsFrom value ds ≤ 10 * threshold + maxLastDigit then some (digitsFrom value ds)
      else none := by
  induction ds generalizing value with
  | nil => rw [decodeDigits, digitsFrom_nil, if_pos hv]
  | cons c ds ih =>
    obtain ⟨hc, hds⟩ := List.forall_mem_cons.mp hds
    have hdigit := isDigit_le hc
    have hge := le_digitsFrom (10 * value + (c.toNat - 0x30)) ds
    rw [decodeDigits, if_neg (by simp [hc]), digitsFrom_cons, Nat.mul_comm value 10]
    dsimp only
    split
    · next h =>
      obtain ⟨hle, hover⟩ := h
      refine (if_neg ?_).symm
      rcases hover with hlt | hne | hlt
      · omega
      · obtain ⟨d, ds', rfl⟩ := List.exists_cons_of_ne_nil hne
        have := le_digitsFrom (10 * (10 * value + (c.toNat - 0x30)) + (d.toNat - 0x30)) ds'
        rw [digitsFrom_cons]
        omega
      · omega
    · next h =>
      apply ih hds
      rcases Nat.lt_or_ge value threshold with hlt | hge'
      · omega
      · have := not_and.mp h hge'
        omega

/-- A character that is no digit makes the number a double. -/
theorem decodeDigits_none {threshold maxLastDigit value : Nat} {ds s : Bytes} {c : Byte}
    (hds : ∀ c ∈ ds, isDigit c = true) (hc : isDigit c = false) :
    decodeDigits threshold maxLastDigit value (ds ++ c :: s) = none := by
  induction ds generalizing value with
  | nil =>
    rw [List.nil_append, decodeDigits, if_pos (by simp [hc])]
  | cons d ds ih =>
    obtain ⟨hd, hds⟩ := List.forall_mem_cons.mp hds
    rw [List.cons_append, decodeDigits, if_neg (by simp [hd])]
    dsimp only
    split
    · rfl
    · exact ih hds

theorem tail_eq_nil (n : Numeral) : n.tail = [] ↔ ¬ (n.frac ≠ [] ∨ n.exp.isSome) := by
  unfold tail Double.point Exponent.text
  cases n.exp <;> by_cases hfrac : n.frac = [] <;> simp [hfrac]

theorem exists_tail (n : Numeral) (h : n.frac ≠ [] ∨ n.exp.isSome) :
    ∃ c s, n.tail = c :: s ∧ isDigit c = false := by
  have hne : n.tail ≠ [] := fun hnil => n.tail_eq_nil.mp hnil h
  have hdigit := n.tail_noDigit (s := []) nofun
  obtain ⟨c, s, htail⟩ := List.exists_cons_of_ne_nil hne
  rw [List.append_nil, htail] at hdigit
  exact ⟨c, s, htail, hdigit c rfl⟩

/-- The integers of `decodeNumber`, for both signs. -/
theorem decodeDigits_text (n : Numeral) {threshold maxLastDigit : Nat} (ht : 0 < threshold)
    (hm : maxLastDigit ≤ 9) : decodeDigits threshold maxLastDigit 0 (n.whole ++ n.tail) =
      if n.frac ≠ [] ∨ n.exp.isSome then none
      else if Double.digitsValue n.whole ≤ 10 * threshold + maxLastDigit then
        some (Double.digitsValue n.whole)
      else none := by
  split
  · next h =>
    obtain ⟨c, s, htail, hc⟩ := n.exists_tail h
    rw [htail]
    exact decodeDigits_none n.hwhole hc
  · next h =>
    rw [n.tail_eq_nil.mpr h, List.append_nil]
    exact decodeDigits_eq ht hm n.hwhole (Nat.zero_le _)

theorem readSign_text (n : Numeral) : Double.readSign n.text = (n.neg, n.whole ++ n.tail) := by
  rw [text_eq]
  cases n.neg with
  | true => rfl
  | false =>
    rw [if_neg Bool.false_ne_true, List.nil_append]
    exact readSign_digits n.hwhole n.hne n.tail

theorem read_text (n : Numeral) : Double.read n.text = some n.nearest := by
  have hends : Ends [] := nofun
  have hnodigit := n.tail_noDigit hends
  obtain ⟨hdigit, hpoint⟩ := exponent_noDigit n.exp hends
  rw [List.append_nil] at hnodigit hdigit hpoint
  obtain ⟨htake, hdrop⟩ := span_digits n.hwhole hnodigit
  unfold Double.read
  rw [n.readSign_text]
  dsimp only
  rw [List.span_eq_takeWhile_dropWhile, htake, hdrop]
  dsimp only
  have hcases : n.frac = [] ∧ n.tail = (n.exp.map Exponent.text).getD [] ∨
      n.tail = 0x2e :: (n.frac ++ (n.exp.map Exponent.text).getD []) := by
    unfold tail Double.point
    by_cases hfrac : n.frac = []
    · exact .inl ⟨hfrac, by rw [if_pos hfrac, List.nil_append]⟩
    · exact .inr (by rw [if_neg hfrac, List.cons_append])
  rcases hcases with ⟨hfrac, htail⟩ | htail
  · rw [if_neg fun h => n.hne h.1]
    split
    · next hcons =>
      rw [← htail, hcons] at hpoint
      exact absurd rfl (hpoint _ rfl)
    · rw [htail, Exponent.read_getD, Option.map_some, nearest, hfrac]
  · obtain ⟨htake', hdrop'⟩ := span_digits n.hfrac hdigit
    rw [if_neg fun h => n.hne h.1, htail]
    split
    · next s hcons =>
      obtain ⟨-, rfl⟩ := List.cons.inj hcons
      rw [List.span_eq_takeWhile_dropWhile, htake', hdrop', Exponent.read_getD, Option.map_some]
      rfl
    · next hcons => exact absurd rfl (hcons _)

/-- The reader makes the value of a number of its text. -/
theorem decodeNumber_text (n : Numeral) : decodeNumber n.text = .ok n.value := by
  have hdouble : decodeDouble n.text = .ok (.real n.nearest) := by rw [decodeDouble, n.read_text]
  unfold value
  cases hneg : n.neg with
  | true =>
    have htext : n.text = 0x2d :: (n.whole ++ n.tail) := by
      rw [text_eq, hneg]
      rfl
    rw [htext] at hdouble ⊢
    rw [decodeNumber, n.decodeDigits_text (by decide) (by decide)]
    by_cases hreal : n.frac ≠ [] ∨ n.exp.isSome
    · rw [if_pos hreal, if_pos hreal]
      exact hdouble
    rw [if_neg hreal, if_neg hreal, if_pos rfl]
    by_cases hfits : Double.digitsValue n.whole ≤ 2 ^ 63
    · rw [if_pos (by omega), if_pos hfits]
      exact congrArg (fun i => Except.ok (Value.int i)) (by omega)
    · rw [if_neg (by omega), if_neg hfits]
      exact hdouble
  | false =>
    have htext : n.text = n.whole ++ n.tail := by
      rw [text_eq, hneg]
      rfl
    rw [htext] at hdouble ⊢
    rw [decodeNumber_unsigned n.hwhole n.hne, n.decodeDigits_text (by decide) (by decide)]
    by_cases hreal : n.frac ≠ [] ∨ n.exp.isSome
    · rw [if_pos hreal, if_pos hreal]
      exact hdouble
    rw [if_neg hreal, if_neg hreal, if_neg Bool.false_ne_true]
    by_cases hint : Double.digitsValue n.whole < 2 ^ 63
    · rw [if_pos (by omega), if_pos hint]
      exact congrArg Except.ok (if_pos (by omega))
    rw [if_neg hint]
    by_cases huint : Double.digitsValue n.whole < 2 ^ 64
    · rw [if_pos (by omega), if_pos huint]
      exact congrArg Except.ok (if_neg (by omega))
    · rw [if_neg (by omega), if_neg huint]
      exact hdouble

end Numeral

end RocksdbService.Json
