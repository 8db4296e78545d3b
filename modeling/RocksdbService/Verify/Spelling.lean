import RocksdbService.Json.Writer
import RocksdbService.Verify.Decimals
import RocksdbService.Verify.Documents

/-! # What the writers print is JSON

A text spells a value if it is that of a document of the grammar with the value that comes back when
it is read (`Value.reread`). Strings come back as UTF-8, a NaN as null and a small `uint` as an `int`;
all other values come back as they are. The lemmas here put texts together; which texts the writers
put together is shown for each of them. -/

namespace RocksdbService.Json

open OurReader

/-! ## No NUL -/

theorem Blank.ne_zero (w : Blank) : 0 ∉ w.bytes := fun h => absurd (w.blank 0 h) (by decide)

theorem HexDigit.byte_ne_zero : ∀ d : HexDigit, 0 ≠ d.byte := by
  rintro ⟨value, upper⟩
  revert value upper
  decide

theorem Hex4.text_ne_zero (h : Hex4) : 0 ∉ h.text := by
  simp [text, HexDigit.byte_ne_zero]

theorem Piece.text_ne_zero (p : Piece) : 0 ∉ p.text := by
  cases p with
  | raw c h =>
    rintro hc
    obtain rfl := List.mem_singleton.mp hc
    exact absurd h.1 (by decide)
  | escape e => cases e <;> decide
  | unicode digits => simp [text, digits.text_ne_zero]
  | pair high low => simp [text, high.text_ne_zero, low.text_ne_zero]

theorem Quoted.text_ne_zero {limit : Nat} (q : Quoted limit) : 0 ∉ q.text := by
  have hpieces : 0 ∉ q.pieces.flatMap Piece.text := fun h => by
    obtain ⟨p, -, hp⟩ := List.mem_flatMap.mp h
    exact p.text_ne_zero hp
  simp [text, hpieces]

theorem Numeral.text_ne_zero (n : Numeral) : 0 ∉ n.text := by
  have hdigits : ∀ {ds : Bytes}, (∀ c ∈ ds, isDigit c = true) → 0 ∉ ds :=
    fun h hzero => absurd (h 0 hzero) (by decide)
  have hsign : 0 ∉ (if n.neg then [0x2d] else [] : Bytes) := by split <;> decide
  have hfrac : 0 ∉ Double.point n.frac := by
    unfold Double.point
    split
    · exact List.not_mem_nil
    · simp [hdigits n.hfrac]
  have hexp : 0 ∉ (n.exp.map Exponent.text).getD [] := by
    cases n.exp with
    | none => exact List.not_mem_nil
    | some e =>
      have hmarker : 0 ≠ e.marker := by rcases e.hmarker with h | h <;> rw [h] <;> decide
      have hsign : 0 ∉ e.sign := by rcases e.hsign with h | h | h <;> rw [h] <;> decide
      simp [Exponent.text, hmarker, hsign, hdigits e.hdigits]
  simp only [text, List.mem_append, not_or]
  exact ⟨⟨⟨hsign, hdigits n.hwhole⟩, hfrac⟩, hexp⟩

mutual

theorem Doc.text_ne_zero : (d : Doc) → 0 ∉ d.text
  | .null => by decide
  | .bool true => by decide
  | .bool false => by decide
  | .number n => n.text_ne_zero
  | .string s => s.text_ne_zero
  | .emptyArray w => by simp [Doc.text, w.ne_zero]
  | .array xs => by simp [Doc.text, xs.text_ne_zero]
  | .emptyObject w => by simp [Doc.text, w.ne_zero]
  | .object ms => by simp [Doc.text, ms.text_ne_zero]

theorem Elements.text_ne_zero : (xs : Elements) → 0 ∉ xs.text
  | .last before d after => by
    simp [Elements.text, before.ne_zero, d.text_ne_zero, after.ne_zero]
  | .cons before d after xs => by
    simp [Elements.text, before.ne_zero, d.text_ne_zero, after.ne_zero, xs.text_ne_zero]

theorem DocMembers.text_ne_zero : (ms : DocMembers) → 0 ∉ ms.text
  | .last before name colon before' d after => by
    simp [DocMembers.text, before.ne_zero, name.text_ne_zero, colon.ne_zero, before'.ne_zero,
      d.text_ne_zero, after.ne_zero]
  | .cons before name colon before' d after ms => by
    simp [DocMembers.text, before.ne_zero, name.text_ne_zero, colon.ne_zero, before'.ne_zero,
      d.text_ne_zero, after.ne_zero, ms.text_ne_zero]

end

/-! ## Values that are read back -/

namespace Value

mutual

/-- How deep values are nested, 1 for a value that contains no others. -/
def depth : Value → Nat
  | .array xs => elementsDepth xs + 1
  | .object ms => membersDepth ms + 1
  | _ => 1

def elementsDepth : List Value → Nat
  | [] => 0
  | x :: xs => max x.depth (elementsDepth xs)

def membersDepth : List (Bytes × Value) → Nat
  | [] => 0
  | (_, x) :: ms => max x.depth (membersDepth ms)

end

end Value

/-- A string as it is read back, if that fits into a value. -/
def JString.reread (s : JString) : JString :=
  if h : (recoded s.bytes).length ≤ maxStringLength then ⟨recoded s.bytes, h⟩ else s

namespace Value

mutual

/-- What comes back when a value is written and read. -/
def reread : Value → Value
  | .null => .null
  | .int i => .int i
  | .uint n => if n < 2 ^ 63 then .int n else .uint n
  | .real d => if d = .nan then .null else .real d.canonical
  | .string s => .string s.reread
  | .bool b => .bool b
  | .array xs => .array (rereadElements xs)
  | .object ms => .object (OrdMap.insertAll [] (rereadMembers ms))

def rereadElements : List Value → List Value
  | [] => []
  | x :: xs => x.reread :: rereadElements xs

def rereadMembers : List (Bytes × Value) → List (Bytes × Value)
  | [] => []
  | (name, x) :: ms => (recoded name, x.reread) :: rereadMembers ms

end

/-- A value whose numbers are those of the machine and whose strings and names can be read back. -/
inductive Writable : Value → Prop
  | null : Writable null
  | int {i : Int} (h : -2 ^ 63 ≤ i ∧ i < 2 ^ 63) : Writable (int i)
  | uint {n : Nat} (h : n < 2 ^ 64) : Writable (uint n)
  | real {d : Double} (h : d.Representable) : Writable (real d)
  | string {s : JString} (h : (recoded s.bytes).length ≤ maxStringLength) : Writable (string s)
  | bool (b : Bool) : Writable (bool b)
  | array {xs : List Value} (h : ∀ x ∈ xs, Writable x) : Writable (array xs)
  | object {ms : Members} (hnames : ∀ p ∈ ms, (recoded p.1).length ≤ maxNameLength)
      (h : ∀ p ∈ ms, Writable p.2) : Writable (object ms)

end Value

open Value (rereadElements rereadMembers elementsDepth membersDepth)

/-- The text is that of a document that is read as the value. -/
def Spells (text : Bytes) (v : Value) : Prop :=
  ∃ d : Doc, d.text = text ∧ d.value = v.reread ∧ d.depth = v.depth

def SpellsElements (text : Bytes) (xs : List Value) : Prop :=
  ∃ es : Elements, es.text = text ∧ es.values = rereadElements xs ∧ es.depth = elementsDepth xs

def SpellsMembers (text : Bytes) (ms : Members) : Prop :=
  ∃ ns : DocMembers, ns.text = text ∧ ns.members = rereadMembers ms ∧ ns.depth = membersDepth ms

/-- A spelled value is read back, unless its values are nested too deep. -/
theorem Spells.parseFromStream {text : Bytes} {v : Value} (h : Spells text v) (before after : Blank) :
    parseFromStream (before.bytes ++ text ++ after.bytes) =
      if v.depth ≤ stackLimit then .ok (.ok v.reread)
      else .error (.exception "Exceeded stackLimit in readValue().") := by
  obtain ⟨d, rfl, hvalue, hdepth⟩ := h
  have hread := parseFromStream_within (parse_document { before, root := d, after })
  rw [← hvalue, ← hdepth, ← hread, Document.text]
  rfl

theorem Spells.ne_zero {text : Bytes} {v : Value} (h : Spells text v) : 0 ∉ text := by
  obtain ⟨d, rfl, -, -⟩ := h
  exact d.text_ne_zero

/-! ## Strings -/

theorem Hex4.exists_text {x : Nat} (h : x < 0x10000) :
    ∃ digits : Hex4, digits.text = toHex16Bit x ∧ digits.value = x := by
  have hbyte : ∀ n : Fin 16, (HexDigit.mk n false).byte = hexDigit n := by decide
  have hhigh : x >>> 8 &&& 0xff = x / 256 := by
    rw [and_mask 0xff 8 rfl, Nat.shiftRight_eq_div_pow]
    omega
  have hlow : x &&& 0xff = x % 256 := and_mask 0xff 8 rfl x
  refine ⟨⟨⟨⟨x / 256 / 16, by omega⟩, false⟩, ⟨⟨x / 256 % 16, by omega⟩, false⟩,
    ⟨⟨x % 256 / 16, by omega⟩, false⟩, ⟨⟨x % 256 % 16, by omega⟩, false⟩⟩, ?_, ?_⟩
  · rw [text, hbyte, hbyte, hbyte, hbyte, toHex16Bit, hhigh, hlow]
  · rw [value]
    dsimp only
    omega

theorem exists_char {n : Nat} (hsurrogate : ¬ (0xd800 ≤ n ∧ n ≤ 0xdfff)) (h : n < 0x110000) :
    ∃ c : Char, c.toNat = n := by
  have hvalid : n.isValidChar := by
    unfold Nat.isValidChar
    omega
  exact ⟨Char.ofNatAux n hvalid, rfl⟩

/-- What is written for a code point is part of a string. -/
theorem exists_piece {cp : Nat} (hsurrogate : ¬ (0xd800 ≤ cp ∧ cp ≤ 0xdfff)) (hquote : cp ≠ 0x22)
    (hbackslash : cp ≠ 0x5c) : ∃ p : Piece, p.text = escapeCodepoint cp := by
  have hescape : cp < 0x10000 → ∃ p : Piece, p.text = appendHex cp := by
    intro h
    obtain ⟨digits, htext, hvalue⟩ := Hex4.exists_text h
    obtain ⟨c, hc⟩ := exists_char hsurrogate (by omega)
    refine ⟨.unicode digits c (hvalue.trans hc.symm), ?_⟩
    rw [Piece.text, htext, appendHex]
  unfold escapeCodepoint
  split
  · exact hescape (by omega)
  split
  · next hlow hhigh =>
    have hcp : cp < 256 := by omega
    have hle : (0x20 : Byte) ≤ cp.toUInt8 := by
      rw [UInt8.le_iff_toNat_le, Nat.toUInt8, UInt8.toNat_ofNat_of_lt' hcp]
      exact Nat.not_lt.mp hlow
    exact ⟨.raw cp.toUInt8 ⟨hle, toUInt8_ne hcp (by decide) hquote,
      toUInt8_ne hcp (by decide) hbackslash⟩, rfl⟩
  split
  · next h => exact hescape h
  · dsimp only
    have hhigh : (cp - 0x10000) >>> 10 &&& 0x3ff = (cp - 0x10000) % 2 ^ 20 / 0x400 := by
      rw [and_mask 0x3ff 10 rfl, Nat.shiftRight_eq_div_pow]
      omega
    have hlow : cp - 0x10000 &&& 0x3ff = (cp - 0x10000) % 2 ^ 20 % 0x400 := by
      rw [and_mask 0x3ff 10 rfl]
      omega
    rw [hhigh, hlow]
    have hx : (cp - 0x10000) % 2 ^ 20 < 2 ^ 20 := Nat.mod_lt _ (by decide)
    generalize (cp - 0x10000) % 2 ^ 20 = x at hx
    obtain ⟨c, hc⟩ := exists_char (n := 0x10000 + x) (by omega) (by omega)
    obtain ⟨high, hhigh, hhigh'⟩ := Hex4.exists_text (x := 0xd800 + x / 0x400) (by omega)
    obtain ⟨low, hlow, hlow'⟩ := Hex4.exists_text (x := 0xdc00 + x % 0x400) (by omega)
    refine ⟨.pair high low c (by omega) (by rw [hhigh', hc, Nat.add_sub_cancel_left])
      (by rw [hlow', hc, Nat.add_sub_cancel_left]), ?_⟩
    rw [Piece.text, hhigh, hlow, appendHex, appendHex]

theorem exists_escape {c e : Byte} (h : shortEscape c = some e) : ∃ x : Escape, x.letter = e := by
  unfold shortEscape at h
  split at h <;> cases h
  exacts [⟨.quote, rfl⟩, ⟨.backslash, rfl⟩, ⟨.backspace, rfl⟩, ⟨.formFeed, rfl⟩, ⟨.lineFeed, rfl⟩,
    ⟨.carriageReturn, rfl⟩, ⟨.tab, rfl⟩]

theorem exists_pieces (skip : Nat) (s : Bytes) :
    ∃ ps : List Piece, ps.flatMap Piece.text = escapeLoop skip s := by
  induction s generalizing skip with
  | nil => exact ⟨[], by rw [escapeLoop_nil, List.flatMap_nil]⟩
  | cons c s ih =>
    cases skip with
    | succ skip => exact ih skip
    | zero =>
      cases hshort : shortEscape c with
      | some e =>
        obtain ⟨x, hx⟩ := exists_escape hshort
        obtain ⟨ps, hps⟩ := ih 0
        refine ⟨.escape x :: ps, ?_⟩
        rw [escapeLoop_short hshort, List.flatMap_cons, hps, Piece.text, hx]
        rfl
      | none =>
        have hreads := utf8ToCodepoint_reads c s
        obtain ⟨hquote, hbackslash⟩ := hreads.ne_of_short hshort
        obtain ⟨p, hp⟩ := exists_piece hreads.not_surrogate hquote hbackslash
        obtain ⟨ps, hps⟩ := ih (utf8ToCodepoint c s).2
        refine ⟨p :: ps, ?_⟩
        rw [escapeLoop_codepoint hshort, List.flatMap_cons, hps, hp]

/-- A quoted string is one of the grammar. -/
theorem exists_quoted {limit : Nat} {s : Bytes} (h : (recoded s).length ≤ limit) :
    ∃ q : Quoted limit, q.text = valueToQuotedStringN s ∧ q.bytes = recoded s := by
  obtain ⟨ps, hps⟩ := exists_pieces 0 s
  have hbytes : ps.flatMap Piece.bytes = recoded s := by
    have hread := Piece.decodeChars_pieces ps
    rw [hps, decodeChars_escapeLoop] at hread
    exact (Except.ok.inj hread).symm
  refine ⟨⟨ps, hbytes ▸ h⟩, ?_, hbytes⟩
  rw [Quoted.text, hps, valueToQuotedStringN_eq]

/-- What comes back is not longer than what is printed. -/
theorem Piece.bytes_length_le (p : Piece) : p.bytes.length ≤ p.text.length := by
  have hchar : ∀ c : Char, (String.utf8EncodeChar c).length ≤ 4 := fun c => by
    rw [String.length_utf8EncodeChar]
    exact c.utf8Size_le_four
  cases p with
  | raw | escape => simp [bytes, text]
  | unicode digits c | pair high low c => exact (hchar c).trans (by simp [text, Hex4.text])

theorem recoded_length_lt (s : Bytes) : (recoded s).length < (valueToQuotedStringN s).length := by
  obtain ⟨q, htext, hbytes⟩ := @exists_quoted (recoded s).length s (Nat.le_refl _)
  have hpieces : (q.pieces.flatMap Piece.bytes).length ≤ (q.pieces.flatMap Piece.text).length := by
    rw [List.length_flatMap, List.length_flatMap]
    exact List.sum_le_sum fun p _ => p.bytes_length_le
  calc (recoded s).length = (q.pieces.flatMap Piece.bytes).length := congrArg List.length hbytes.symm
    _ < q.text.length := by
      rw [Quoted.text, List.length_append, List.length_cons, List.length_singleton]
      omega
    _ = (valueToQuotedStringN s).length := congrArg List.length htext

/-! ## Scalars -/

theorem spells_null : Spells (ascii "null") .null := ⟨.null, rfl, rfl, rfl⟩

theorem spells_bool (b : Bool) : Spells (ascii (if b then "true" else "false")) (.bool b) :=
  ⟨.bool b, rfl, rfl, rfl⟩

theorem spells_int {i : Int} (h : -2 ^ 63 ≤ i ∧ i < 2 ^ 63) : Spells (intToString i) (.int i) := by
  refine ⟨.number (.ofInt i), Numeral.ofInt_text i, ?_, rfl⟩
  rw [Doc.value, Numeral.ofInt_value (by omega), if_pos h.2, Value.reread]

theorem spells_uint {n : Nat} (h : n < 2 ^ 64) : Spells (uintToString n) (.uint n) := by
  have htext : intToString n = uintToString n := if_neg (by omega)
  refine ⟨.number (.ofInt n), (Numeral.ofInt_text n).trans htext, ?_, rfl⟩
  rw [Doc.value, Numeral.ofInt_value (by omega), Value.reread, Int.natAbs_natCast]
  by_cases hn : n < 2 ^ 63
  · rw [if_pos hn, if_pos (by omega)]
  · rw [if_neg hn, if_neg (by omega)]

theorem spells_real {d : Double} (h : d.Representable) : Spells d.valueToString (.real d) := by
  by_cases hnan : d = .nan
  · subst hnan
    exact ⟨.null, rfl, rfl, rfl⟩
  · obtain ⟨n, htext, hvalue⟩ := Double.exists_spelling h hnan
    refine ⟨.number n, htext, ?_, rfl⟩
    rw [Doc.value, hvalue, Value.reread, if_neg hnan]

theorem spells_string {s : JString} (h : (recoded s.bytes).length ≤ maxStringLength) :
    Spells (valueToQuotedStringN s.bytes) (.string s) := by
  obtain ⟨q, htext, hbytes⟩ := exists_quoted h
  refine ⟨.string q, htext, ?_, rfl⟩
  rw [Doc.value, Value.reread, JString.reread, dif_pos h]
  congr

/-! ## Arrays and objects -/

theorem spells_emptyArray (w : Blank) : Spells (0x5b :: w.bytes ++ [0x5d]) (.array []) :=
  ⟨.emptyArray w, rfl, rfl, rfl⟩

theorem spells_emptyObject (w : Blank) : Spells (0x7b :: w.bytes ++ [0x7d]) (.object []) :=
  ⟨.emptyObject w, rfl, rfl, rfl⟩

variable {text texts : Bytes} {x : Value} {xs : List Value} {ms : Members}

theorem SpellsElements.last (before after : Blank) (h : Spells text x) :
    SpellsElements (before.bytes ++ text ++ after.bytes) [x] := by
  obtain ⟨d, rfl, hvalue, hdepth⟩ := h
  refine ⟨.last before d after, rfl, ?_, ?_⟩
  · rw [Elements.values, hvalue, rereadElements, rereadElements]
  · rw [Elements.depth, hdepth, elementsDepth, elementsDepth, Nat.max_zero]

theorem SpellsElements.cons (before after : Blank) (h : Spells text x) (hs : SpellsElements texts xs) :
    SpellsElements (before.bytes ++ text ++ after.bytes ++ 0x2c :: texts) (x :: xs) := by
  obtain ⟨d, rfl, hvalue, hdepth⟩ := h
  obtain ⟨es, rfl, hvalues, hdepths⟩ := hs
  refine ⟨.cons before d after es, rfl, ?_, ?_⟩
  · rw [Elements.values, hvalue, hvalues, rereadElements]
  · rw [Elements.depth, hdepth, hdepths, elementsDepth]

theorem SpellsElements.array (h : SpellsElements texts xs) :
    Spells (0x5b :: texts ++ [0x5d]) (.array xs) := by
  obtain ⟨es, rfl, hvalues, hdepths⟩ := h
  refine ⟨.array es, rfl, ?_, ?_⟩
  · rw [Doc.value, hvalues, Value.reread]
  · rw [Doc.depth, hdepths, Value.depth]

theorem SpellsMembers.object (h : SpellsMembers texts ms) :
    Spells (0x7b :: texts ++ [0x7d]) (.object ms) := by
  obtain ⟨ns, rfl, hmembers, hdepths⟩ := h
  refine ⟨.object ns, rfl, ?_, ?_⟩
  · rw [Doc.value, hmembers, Value.reread]
  · rw [Doc.depth, hdepths, Value.depth]

variable {name : Bytes} (hname : (recoded name).length ≤ maxNameLength)

include hname

theorem SpellsMembers.last (before colon before' after : Blank) (h : Spells text x) :
    SpellsMembers (before.bytes ++ valueToQuotedStringN name ++ colon.bytes ++ 0x3a ::
      before'.bytes ++ text ++ after.bytes) [(name, x)] := by
  obtain ⟨q, hquoted, hbytes⟩ := exists_quoted hname
  obtain ⟨d, rfl, hvalue, hdepth⟩ := h
  refine ⟨.last before q colon before' d after, ?_, ?_, ?_⟩
  · rw [DocMembers.text, hquoted]
  · rw [DocMembers.members, hvalue, hbytes, rereadMembers, rereadMembers]
  · rw [DocMembers.depth, hdepth, membersDepth, membersDepth, Nat.max_zero]

theorem SpellsMembers.cons (before colon before' after : Blank) (h : Spells text x)
    (hs : SpellsMembers texts ms) :
    SpellsMembers (before.bytes ++ valueToQuotedStringN name ++ colon.bytes ++ 0x3a ::
      before'.bytes ++ text ++ after.bytes ++ 0x2c :: texts) ((name, x) :: ms) := by
  obtain ⟨q, hquoted, hbytes⟩ := exists_quoted hname
  obtain ⟨d, rfl, hvalue, hdepth⟩ := h
  obtain ⟨ns, rfl, hmembers, hdepths⟩ := hs
  refine ⟨.cons before q colon before' d after ns, ?_, ?_, ?_⟩
  · rw [DocMembers.text, hquoted]
  · rw [DocMembers.members, hvalue, hmembers, hbytes, rereadMembers]
  · rw [DocMembers.depth, hdepth, hdepths, membersDepth]

end RocksdbService.Json
