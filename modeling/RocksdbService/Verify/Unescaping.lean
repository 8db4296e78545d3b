import RocksdbService.Verify.Utf8

/-! # What the reader makes of what the writer made of a string

The writer takes a string for UTF-8 and writes the code points it reads in it; of what it cannot read it
makes a replacement character. The reader therefore gives back the string exactly if it is well-formed
UTF-8 (`recoded_eq_iff`). -/

namespace RocksdbService.Json

open Outcome
open OurReader

/-! ## Escapes -/

theorem hexValue_hexDigit {n : Nat} (h : n < 16) : hexValue (hexDigit n) = some n := by
  revert n
  decide

theorem decodeUnicodeEscapeSequence_hex (x : Nat) (s : Bytes) :
    decodeUnicodeEscapeSequence (toHex16Bit x ++ s) = .ok (x % 65536) := by
  have hhigh : x >>> 8 &&& 0xff = x / 256 % 256 := by
    rw [and_mask 0xff 8 rfl, Nat.shiftRight_eq_div_pow]
  have hlow : x &&& 0xff = x % 256 := and_mask 0xff 8 rfl x
  have hdigits : ((toHex16Bit x ++ s).take 4).mapM hexValue =
      some [x / 256 % 256 / 16, x / 256 % 256 % 16, x % 256 / 16, x % 256 % 16] := by
    unfold toHex16Bit
    simp only [hhigh, hlow, List.cons_append, List.nil_append, List.take_succ_cons, List.take_zero,
      List.mapM_cons, List.mapM_nil]
    rw [hexValue_hexDigit (by omega), hexValue_hexDigit (by omega), hexValue_hexDigit (by omega),
      hexValue_hexDigit (by omega)]
    rfl
  unfold decodeUnicodeEscapeSequence
  rw [hdigits, if_neg (by simp [toHex16Bit])]
  simp only [List.foldl_cons, List.foldl_nil]
  exact congrArg Except.ok (by omega)

theorem decodeChars_drop (n : Nat) (s : Bytes) : decodeChars n s = decodeChars 0 (s.drop n) := by
  induction n generalizing s with
  | zero => rfl
  | succ n ih =>
    cases s with
    | nil => rfl
    | cons c s => rw [decodeChars_skip, ih, List.drop_succ_cons]

/-- The code point that the escape of a code point stands for. -/
def readBack (codepoint : Nat) : Nat :=
  if codepoint < 0x10000 then codepoint else 0x10000 + (codepoint - 0x10000) % 2 ^ 20

/-- One escape, for what is not written as it is. -/
theorem decodeChars_appendHex {ch : Nat} (hch : ch < 0x10000)
    (hsurrogate : ¬ (0xd800 ≤ ch ∧ ch ≤ 0xdfff)) (s : Bytes) :
    decodeChars 0 (appendHex ch ++ s) = (do return codePointToUTF8 ch ++ (← decodeChars 0 s)) := by
  have hpoint : decodeUnicodeCodePoint (toHex16Bit ch ++ s) = .ok (ch, 4) := by
    unfold decodeUnicodeCodePoint
    rw [decodeUnicodeEscapeSequence_hex, Nat.mod_eq_of_lt hch, ok_bind, if_neg (by omega)]
    rfl
  change decodeChars 0 (0x5c :: 0x75 :: (toHex16Bit ch ++ s)) = _
  rw [decodeChars_unicode, hpoint, ok_bind]
  dsimp only
  rw [decodeChars_drop]
  rfl

/-- A pair of escapes. -/
theorem decodeChars_surrogates (x : Nat) (s : Bytes) :
    decodeChars 0 (appendHex (0xd800 + (x >>> 10 &&& 0x3ff)) ++ appendHex (0xdc00 + (x &&& 0x3ff)) ++ s) =
      (do return codePointToUTF8 (0x10000 + x % 2 ^ 20) ++ (← decodeChars 0 s)) := by
  have hhigh : x >>> 10 &&& 0x3ff = x / 1024 % 1024 := by
    rw [and_mask 0x3ff 10 rfl, Nat.shiftRight_eq_div_pow]
  have hlow : x &&& 0x3ff = x % 1024 := and_mask 0x3ff 10 rfl x
  rw [hhigh, hlow]
  generalize hhi : 0xd800 + x / 1024 % 1024 = hi
  generalize hlo : 0xdc00 + x % 1024 = lo
  have hpoint : decodeUnicodeCodePoint (toHex16Bit hi ++ (appendHex lo ++ s)) =
      .ok (0x10000 + x % 2 ^ 20, 10) := by
    have hdrop : (toHex16Bit hi ++ (appendHex lo ++ s)).drop 4 = appendHex lo ++ s := rfl
    have htwo : (appendHex lo ++ s).drop 2 = toHex16Bit lo ++ s := rfl
    have htake : (appendHex lo ++ s).take 2 = [0x5c, 0x75] := rfl
    unfold decodeUnicodeCodePoint
    rw [decodeUnicodeEscapeSequence_hex, ok_bind, if_pos (by omega)]
    dsimp only
    rw [hdrop, htake, htwo, decodeUnicodeEscapeSequence_hex, if_neg (by simp [appendHex, toHex16Bit]),
      if_pos rfl, ok_bind, and_mask 0x3ff 10 rfl, and_mask 0x3ff 10 rfl, Nat.shiftLeft_eq]
    refine congrArg Except.ok (Prod.ext ?_ rfl)
    dsimp only
    omega
  change decodeChars 0 (0x5c :: 0x75 :: (toHex16Bit hi ++ (appendHex lo ++ s))) = _
  rw [decodeChars_unicode, hpoint, ok_bind]
  dsimp only
  rw [decodeChars_drop]
  rfl

theorem codePointToUTF8_ascii {cp : Nat} (h : cp < 0x80) : codePointToUTF8 cp = [cp.toUInt8] :=
  if_pos (Nat.le_of_lt_succ h)

theorem toUInt8_ne {m n : Nat} (hm : m < 256) (hn : n < 256) (h : m ≠ n) : m.toUInt8 ≠ n.toUInt8 := by
  have hbyte : ∀ {x : Nat}, x < 256 → x.toUInt8.toNat = x := fun h => UInt8.toNat_ofNat_of_lt' h
  intro heq
  apply h
  rw [← hbyte hm, heq, hbyte hn]

/-- What the reader makes of what the writer makes of a code point. -/
theorem decodeChars_escapeCodepoint {cp : Nat} (hsurrogate : ¬ (0xd800 ≤ cp ∧ cp ≤ 0xdfff))
    (hquote : cp ≠ 0x22) (hbackslash : cp ≠ 0x5c) (s : Bytes) :
    decodeChars 0 (escapeCodepoint cp ++ s) =
      (do return codePointToUTF8 (readBack cp) ++ (← decodeChars 0 s)) := by
  unfold escapeCodepoint readBack
  split
  · next h =>
    rw [if_pos (by omega)]
    exact decodeChars_appendHex (by omega) hsurrogate s
  split
  · next h =>
    have hcp : cp < 256 := h.trans (by decide)
    rw [if_pos (by omega), codePointToUTF8_ascii h]
    exact decodeChars_char (toUInt8_ne hcp (by decide) hquote) (toUInt8_ne hcp (by decide) hbackslash) s
  split
  · next h =>
    exact decodeChars_appendHex h hsurrogate s
  · exact decodeChars_surrogates (cp - 0x10000) s

/-! ## Strings -/

/-- The code points that the writer reads in a string. -/
def points : Nat → Bytes → List Nat
  | _, [] => []
  | skip + 1, _ :: s => points skip s
  | 0, c :: s => (utf8ToCodepoint c s).1 :: points (utf8ToCodepoint c s).2 s

@[simp] theorem points_nil (skip : Nat) : points skip [] = [] := by cases skip <;> rfl

/-- What the reader gives back for a string that the writer has written. -/
def recoded (s : Bytes) : Bytes := (points 0 s).flatMap fun cp => codePointToUTF8 (readBack cp)

theorem Reads.not_surrogate {c : Byte} {s : Bytes} {p : Nat × Nat} (h : Reads c s p) :
    ¬ (0xd800 ≤ p.1 ∧ p.1 ≤ 0xdfff) := by
  cases h with
  | ascii h => dsimp only; omega
  | two h => dsimp only; omega
  | three _ _ _ _ hsurrogate => exact hsurrogate
  | four _ _ _ hrange => dsimp only; omega
  | replaced =>
    change ¬ (0xd800 ≤ replacementCharacter ∧ replacementCharacter ≤ 0xdfff)
    decide

theorem Reads.ascii_or {c : Byte} {s : Bytes} {p : Nat × Nat} (h : Reads c s p) :
    p = (c.toNat, 0) ∨ 0x80 ≤ p.1 := by
  cases h with
  | ascii => exact .inl rfl
  | two _ _ hcp => exact .inr hcp
  | three _ _ _ hrange => exact .inr (by dsimp only; omega)
  | four _ _ _ hrange => exact .inr (by dsimp only; omega)
  | replaced =>
    have h : 0x80 ≤ replacementCharacter := by decide
    exact .inr h

/-- Where there is no short escape, neither a quote nor a backslash is read. -/
theorem Reads.ne_of_short {c : Byte} {s : Bytes} {p : Nat × Nat} (h : Reads c s p)
    (hshort : shortEscape c = none) : p.1 ≠ 0x22 ∧ p.1 ≠ 0x5c := by
  have hne : ∀ b : Byte, shortEscape b ≠ none → b.toNat < 0x80 → p.1 ≠ b.toNat := by
    intro b hb hlt heq
    rcases h.ascii_or with h | h
    · rw [h] at heq
      exact hb (UInt8.toNat_inj.mp heq ▸ hshort)
    · omega
  exact ⟨hne 0x22 (by decide) (by decide), hne 0x5c (by decide) (by decide)⟩

theorem shortEscape_decodes {c e : Byte} (h : shortEscape c = some e) :
    e ≠ 0x75 ∧ simpleEscape e = some c ∧ c.toNat < 0x80 := by
  unfold shortEscape at h
  split at h <;> cases h <;> decide

theorem decodeChars_escapeLoop (skip : Nat) (s : Bytes) :
    decodeChars 0 (escapeLoop skip s) =
      .ok ((points skip s).flatMap fun cp => codePointToUTF8 (readBack cp)) := by
  induction s generalizing skip with
  | nil => rw [escapeLoop_nil, points_nil]; rfl
  | cons c s ih =>
    cases skip with
    | succ skip => exact ih skip
    | zero =>
      rw [points, List.flatMap_cons]
      cases hshort : shortEscape c with
      | some e =>
        obtain ⟨hne, hsimple, hc⟩ := shortEscape_decodes hshort
        have hself : codePointToUTF8 (readBack c.toNat) = [c] := by
          rw [readBack, if_pos (by omega), codePointToUTF8_ascii hc]
          simp
        rw [escapeLoop_short hshort, decodeChars_escape hne hsimple, ih, utf8ToCodepoint_ascii hc, hself]
        rfl
      | none =>
        have hreads := utf8ToCodepoint_reads c s
        obtain ⟨hquote, hbackslash⟩ := hreads.ne_of_short hshort
        rw [escapeLoop_codepoint hshort,
          decodeChars_escapeCodepoint hreads.not_surrogate hquote hbackslash, ih]
        rfl

theorem readBack_of_lt {cp : Nat} (h : cp < 0x110000) : readBack cp = cp := by
  unfold readBack
  split <;> omega

theorem codePointToUTF8_readBack {cp : Nat} (hsurrogate : ¬ (0xd800 ≤ cp ∧ cp ≤ 0xdfff)) :
    ∃ c : Char, codePointToUTF8 (readBack cp) = String.utf8EncodeChar c := by
  have hvalid : (readBack cp).isValidChar := by
    unfold Nat.isValidChar readBack
    split <;> omega
  refine ⟨Char.ofNatAux (readBack cp) hvalid, ?_⟩
  rw [← codePointToUTF8_toNat]
  rfl

/-- The reader gives back a character for each code point. -/
theorem recoded_isUtf8 (s : Bytes) : IsUtf8 (recoded s) := by
  have key : ∀ (s : Bytes) (skip : Nat), ∃ cs,
      ((points skip s).flatMap fun cp => codePointToUTF8 (readBack cp)) = utf8 cs := by
    intro s
    induction s with
    | nil => exact fun skip => ⟨[], by rw [points_nil]; rfl⟩
    | cons c s ih =>
      intro skip
      cases skip with
      | succ skip => exact ih skip
      | zero =>
        obtain ⟨cs, hcs⟩ := ih (utf8ToCodepoint c s).2
        have hsurrogate := (utf8ToCodepoint_reads c s).not_surrogate
        obtain ⟨char, hchar⟩ := codePointToUTF8_readBack hsurrogate
        refine ⟨char :: cs, ?_⟩
        rw [points, List.flatMap_cons, hcs, utf8_cons, hchar]
  exact key s 0

/-- What the writer reads in well-formed UTF-8 are its characters. -/
theorem points_utf8 (cs : List Char) : points 0 (utf8 cs) = cs.map Char.toNat := by
  have hskip : ∀ t s : Bytes, points t.length (t ++ s) = points 0 s := by
    intro t s
    induction t with
    | nil => rfl
    | cons b t ih => exact ih
  induction cs with
  | nil => rfl
  | cons c cs ih =>
    obtain ⟨b, t, hbytes, hread⟩ := utf8ToCodepoint_encode c (utf8 cs)
    rw [utf8_cons, hbytes, List.cons_append, points, hread, hskip, ih, List.map_cons]

theorem recoded_utf8 (cs : List Char) : recoded (utf8 cs) = utf8 cs := by
  rw [recoded, points_utf8, List.flatMap_map]
  refine List.flatMap_congr fun c _ => ?_
  rw [readBack_of_lt (by rcases toNat_valid c with h | h <;> omega), codePointToUTF8_toNat]

/-- A string comes back exactly if it is well-formed UTF-8. -/
theorem recoded_eq_iff (s : Bytes) : recoded s = s ↔ IsUtf8 s := by
  constructor
  · intro h
    exact h ▸ recoded_isUtf8 s
  · rintro ⟨cs, rfl⟩
    exact recoded_utf8 cs

theorem codePointToUTF8_length (cp : Nat) :
    (codePointToUTF8 cp).length ≤ if cp < 0x10000 then 3 else 4 := by
  unfold codePointToUTF8
  split
  · split <;> exact Nat.le_of_ble_eq_true rfl
  split
  · split <;> exact Nat.le_of_ble_eq_true rfl
  split
  · next h => rw [if_pos (by omega)]; exact Nat.le_refl 3
  split
  · next h _ => rw [if_neg (by omega)]; exact Nat.le_refl 4
  · exact Nat.zero_le _

/-- A code point comes back as at most three bytes for each byte that the writer moves past. -/
theorem Reads.readBack_length_le {c : Byte} {s : Bytes} {p : Nat × Nat} (h : Reads c s p) :
    (codePointToUTF8 (readBack p.1)).length ≤ 3 * (p.2 + 1) := by
  have hlen := codePointToUTF8_length (readBack p.1)
  have hlow : p.1 < 0x10000 → readBack p.1 < 0x10000 := fun h => by
    rw [readBack, if_pos h]
    exact h
  cases h with
  | ascii h =>
    rw [if_pos (hlow (by dsimp only; omega))] at hlen
    omega
  | two h _ _ =>
    rw [if_pos (hlow (by dsimp only; omega))] at hlen
    omega
  | three h _ hcp =>
    rw [if_pos (hlow (by dsimp only; omega))] at hlen
    omega
  | four =>
    split at hlen <;> omega
  | replaced =>
    rw [if_pos (hlow (show replacementCharacter < 0x10000 by decide))] at hlen
    omega

theorem recoded_length (s : Bytes) : (recoded s).length ≤ 3 * s.length := by
  have key : ∀ (s : Bytes) (skip : Nat),
      ((points skip s).flatMap fun cp => codePointToUTF8 (readBack cp)).length ≤
        3 * (s.length - skip) := by
    intro s
    induction s with
    | nil => simp
    | cons c s ih =>
      intro skip
      cases skip with
      | succ skip =>
        rw [List.length_cons, Nat.add_sub_add_right]
        exact ih skip
      | zero =>
        have hreads := utf8ToCodepoint_reads c s
        have hlen := hreads.readBack_length_le
        have htaken := hreads.taken_le
        have := ih (utf8ToCodepoint c s).2
        rw [points, List.flatMap_cons, List.length_append, List.length_cons]
        omega
  exact key s 0

/-! ## Documents -/

theorem skipCommentTokens_of_token {s text rest : Bytes} {ok : Bool} {type : TokenType}
    (h : readToken s = (ok, ⟨type, text⟩, rest)) (hne : type ≠ .comment) :
    skipCommentTokens s = (ok, ⟨type, text⟩, rest) := by
  have key : ∀ n, skipCommentTokensFrom n s = (ok, ⟨type, text⟩, rest) := by
    intro n
    cases n with
    | zero => exact h
    | succ n => rw [skipCommentTokensFrom, h]; exact if_neg hne
  exact key s.length

theorem readString_plain {t : Bytes} (h : ∀ b ∈ t, b ≠ 0x5c ∧ b ≠ 0x22) (s : Bytes) :
    readString (t ++ s) = ((readString s).1, t ++ (readString s).2.1, (readString s).2.2) := by
  induction t with
  | nil => rfl
  | cons b t ih =>
    obtain ⟨⟨hbackslash, hquote⟩, ht⟩ := List.forall_mem_cons.mp h
    rw [List.cons_append, readString_char hbackslash hquote, ih ht]
    rfl

theorem hexDigit_plain {n : Nat} (h : n < 16) : hexDigit n ≠ 0x5c ∧ hexDigit n ≠ 0x22 := by
  revert n
  decide

theorem readString_appendHex (ch : Nat) (s : Bytes) : readString (appendHex ch ++ s) =
    ((readString s).1, appendHex ch ++ (readString s).2.1, (readString s).2.2) := by
  have hplain : ∀ b ∈ toHex16Bit ch, b ≠ 0x5c ∧ b ≠ 0x22 := by
    have hbyte : ∀ x : Nat, (x &&& 0xff) / 16 < 16 ∧ (x &&& 0xff) % 16 < 16 := by
      intro x
      rw [and_mask 0xff 8 rfl]
      omega
    intro b hb
    simp only [toHex16Bit, List.mem_cons, List.not_mem_nil, or_false] at hb
    rcases hb with rfl | rfl | rfl | rfl
    · exact hexDigit_plain (hbyte _).1
    · exact hexDigit_plain (hbyte _).2
    · exact hexDigit_plain (hbyte _).1
    · exact hexDigit_plain (hbyte _).2
  change readString (0x5c :: 0x75 :: (toHex16Bit ch ++ s)) = _
  rw [readString_escape, readString_plain hplain]
  rfl

theorem readString_escapeCodepoint {cp : Nat} (hquote : cp ≠ 0x22) (hbackslash : cp ≠ 0x5c)
    (s : Bytes) : readString (escapeCodepoint cp ++ s) =
      ((readString s).1, escapeCodepoint cp ++ (readString s).2.1, (readString s).2.2) := by
  unfold escapeCodepoint
  split
  · exact readString_appendHex cp s
  split
  · next h =>
    have hcp : cp < 256 := h.trans (by decide)
    exact readString_char (toUInt8_ne hcp (by decide) hbackslash) (toUInt8_ne hcp (by decide) hquote) s
  split
  · exact readString_appendHex cp s
  · dsimp only
    rw [List.append_assoc, readString_appendHex, readString_appendHex, List.append_assoc]

/-- The writer's quote is where the reader ends the string. -/
theorem readString_escapeLoop (skip : Nat) (s rest : Bytes) :
    readString (escapeLoop skip s ++ 0x22 :: rest) = (true, escapeLoop skip s ++ [0x22], rest) := by
  induction s generalizing skip with
  | nil => rw [escapeLoop_nil]; exact readString_quote rest
  | cons c s ih =>
    cases skip with
    | succ skip => exact ih skip
    | zero =>
      cases hshort : shortEscape c with
      | some e =>
        rw [escapeLoop_short hshort]
        change readString (0x5c :: e :: (escapeLoop 0 s ++ 0x22 :: rest)) = _
        rw [readString_escape, ih]
        rfl
      | none =>
        obtain ⟨hquote, hbackslash⟩ := (utf8ToCodepoint_reads c s).ne_of_short hshort
        rw [escapeLoop_codepoint hshort, List.append_assoc,
          readString_escapeCodepoint hquote hbackslash, ih, List.append_assoc]

theorem decodeString_quoted (s : Bytes) :
    decodeString (0x22 :: (escapeLoop 0 s ++ [0x22])) = .ok (recoded s) := by
  rw [decodeString, List.tail_cons, List.dropLast_concat, decodeChars_escapeLoop]
  rfl

theorem readToken_quoted (s rest : Bytes) : readToken (valueToQuotedStringN s ++ rest) =
    (true, ⟨.string, 0x22 :: (escapeLoop 0 s ++ [0x22])⟩, rest) := by
  have hread : readToken (0x22 :: (escapeLoop 0 s ++ 0x22 :: rest)) =
      ((readString (escapeLoop 0 s ++ 0x22 :: rest)).1,
        ⟨if (readString (escapeLoop 0 s ++ 0x22 :: rest)).1 then .string else .error,
          0x22 :: (readString (escapeLoop 0 s ++ 0x22 :: rest)).2.1⟩,
        (readString (escapeLoop 0 s ++ 0x22 :: rest)).2.2) := rfl
  rw [valueToQuotedStringN_eq, List.append_assoc, List.cons_append, List.cons_append, List.nil_append, hread,
    readString_escapeLoop]
  rfl

theorem readMemberName_quoted {s : Bytes} (h : (recoded s).length < 2 ^ 30) (rest : Bytes) :
    readMemberName (valueToQuotedStringN s ++ 0x3a :: rest) = .ok (some (recoded s), rest) := by
  have hcolon : readToken (0x3a :: rest) = (true, ⟨.memberSeparator, []⟩, rest) := rfl
  unfold readMemberName
  rw [skipCommentTokens_of_token (readToken_quoted s _) (by decide)]
  dsimp only
  rw [if_neg (by decide), if_neg (by decide), if_neg (by decide), decodeString_quoted, ok_bind,
    if_neg (Nat.not_le.mpr h), hcolon]
  rfl

theorem readValue_quoted (fuel : Nat) {depth : Nat} (hd : depth ≤ stackLimit) (s rest : Bytes) :
    readValue (fuel + 1) depth (valueToQuotedStringN s ++ rest) =
      (do return (← stringValue (recoded s), rest)) := by
  rw [readValue, if_neg (Nat.not_lt.mpr hd),
    skipCommentTokens_of_token (readToken_quoted s rest) (by decide)]
  dsimp only
  rw [if_neg (by decide), if_neg (by decide), readScalar]
  dsimp only
  rw [decodeString_quoted, ok_bind]

theorem readValue_zero (fuel : Nat) (rest : Bytes) :
    readValue (fuel + 1) 2 (0x30 :: 0x2c :: rest) = .ok (.int 0, 0x2c :: rest) := by
  have hzero : readToken (0x30 :: 0x2c :: rest) = (true, ⟨.number, [0x30]⟩, 0x2c :: rest) := rfl
  rw [readValue, if_neg (by decide), skipCommentTokens_of_token hzero (by decide)]
  rfl

/-- What the reader makes of the text of a reply with a value. -/
theorem parseFromStream_valueText (s : Bytes) :
    parseFromStream (ascii "\x7b\"error\":0,\"value\":" ++ valueToQuotedStringN s ++ ascii "\x7d\n") =
      (do
        let value ← Value.ofString (recoded s)
        return .ok (.object [(ascii "error", .int 0), (ascii "value", value)])) := by
  have herror : recoded (ascii "error") = ascii "error" := by decide +kernel
  have hvalue : recoded (ascii "value") = ascii "value" := by decide +kernel
  generalize hdoc : ascii "\x7b\"error\":0,\"value\":" ++ valueToQuotedStringN s ++ ascii "\x7d\n" = doc
  have htext : doc = 0x7b :: (valueToQuotedStringN (ascii "error") ++ 0x3a :: 0x30 :: 0x2c ::
      (valueToQuotedStringN (ascii "value") ++ 0x3a :: (valueToQuotedStringN s ++ [0x7d, 0x0a]))) := by
    have hopen : ascii "\x7b\"error\":0,\"value\":" = 0x7b :: valueToQuotedStringN (ascii "error") ++
      [0x3a, 0x30, 0x2c] ++ valueToQuotedStringN (ascii "value") ++ [0x3a] := by decide +kernel
    rw [← hdoc, hopen]
    simp only [List.cons_append, List.nil_append, List.append_assoc]
    rfl
  have hread : parse doc = (do
      let value ← stringValue (recoded s)
      return (.object [(ascii "error", .int 0), (ascii "value", value)], [0x0a])) := by
    have hbom : skipBom doc = doc := by rw [htext]; rfl
    have hbrace : ∀ t, readToken (0x7b :: t) = (true, ⟨.objectBegin, []⟩, t) := fun _ => rfl
    have hcomma : ∀ t, readMemberEnd (0x2c :: t) = .ok (false, t) := fun _ => rfl
    have hend : readMemberEnd [0x7d, 0x0a] = .ok (true, [0x0a]) := rfl
    unfold parse
    dsimp only
    rw [hbom, ← readValue_fuel 1 (Nat.le_add_right _ 5)]
    generalize 2 * doc.length = n
    rw [htext, readValue, if_neg (by decide), skipCommentTokens_of_token (hbrace _) (by decide)]
    dsimp only
    rw [if_pos rfl, readObject, readMemberName_quoted (by rw [herror]; decide), ok_bind, herror]
    dsimp only
    rw [readValue_zero, ok_bind]
    dsimp only
    rw [hcomma, ok_bind]
    dsimp only
    rw [if_neg Bool.false_ne_true, readObject, readMemberName_quoted (by rw [hvalue]; decide), ok_bind,
      hvalue]
    dsimp only
    rw [readValue_quoted _ (by decide), bind_assoc]
    refine bind_congr_ok fun value _ => ?_
    rw [pure_bind]
    dsimp only
    rw [hend, ok_bind]
    rfl
  unfold parseFromStream
  rw [hread]
  unfold stringValue
  cases Value.ofString (recoded s) <;> rfl

end RocksdbService.Json
