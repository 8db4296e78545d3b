import RocksdbService.Json.Value

/-! # `Json::FastWriter`

The compact writer of `json_writer.cc` with its default settings (no YAML spacing, null
placeholders kept, a line feed at the end, `emitUTF8` off). -/

namespace RocksdbService.Json

/-- `doesAnyCharRequireEscaping`. -/
def doesAnyCharRequireEscaping (s : Bytes) : Bool :=
  s.any fun c => c = 0x5c || c = 0x22 || c < 0x20 || 0x7f < c

/-- `REPLACEMENT_CHARACTER`. -/
def replacementCharacter : Nat := 0xfffd

/-- `utf8ToCodepoint` at the byte `c` followed by `s`: the code point and by how many bytes the
position moves past `c`. -/
def utf8ToCodepoint (c : Byte) (s : Bytes) : Nat × Nat :=
  let firstByte := c.toNat
  if firstByte < 0x80 then (firstByte, 0)
  else if firstByte < 0xe0 then
    match s with
    | s1 :: _ =>
      let calculated := (firstByte &&& 0x1f) <<< 6 ||| s1.toNat &&& 0x3f
      -- oversized encoded characters are invalid
      (if calculated < 0x80 then replacementCharacter else calculated, 1)
    | _ => (replacementCharacter, 0)
  else if firstByte < 0xf0 then
    match s with
    | s1 :: s2 :: _ =>
      let calculated :=
        (firstByte &&& 0x0f) <<< 12 ||| (s1.toNat &&& 0x3f) <<< 6 ||| s2.toNat &&& 0x3f
      -- surrogates are not code points
      (if 0xd800 ≤ calculated ∧ calculated ≤ 0xdfff then replacementCharacter
        else if calculated < 0x800 then replacementCharacter else calculated, 2)
    | _ => (replacementCharacter, 0)
  else if firstByte < 0xf8 then
    match s with
    | s1 :: s2 :: s3 :: _ =>
      let calculated :=
        (firstByte &&& 0x07) <<< 18 ||| (s1.toNat &&& 0x3f) <<< 12 |||
          (s2.toNat &&& 0x3f) <<< 6 ||| s3.toNat &&& 0x3f
      (if calculated < 0x10000 then replacementCharacter else calculated, 3)
    | _ => (replacementCharacter, 0)
  else (replacementCharacter, 0)

/-- The lower-case digit that the table `hex2` holds for `n < 16`. -/
def hexDigit (n : Nat) : Byte := if n < 10 then (0x30 + n).toUInt8 else (0x57 + n).toUInt8

/-- `toHex16Bit`. -/
def toHex16Bit (x : Nat) : Bytes :=
  let hi := x >>> 8 &&& 0xff
  let lo := x &&& 0xff
  [hexDigit (hi / 16), hexDigit (hi % 16), hexDigit (lo / 16), hexDigit (lo % 16)]

/-- What `appendHex` appends. -/
def appendHex (ch : Nat) : Bytes := 0x5c :: 0x75 :: toHex16Bit ch

/-- What the `default` branch of `valueToQuotedStringN` appends for a code point. -/
def escapeCodepoint (codepoint : Nat) : Bytes :=
  if codepoint < 0x20 then appendHex codepoint
  else if codepoint < 0x80 then [codepoint.toUInt8]
  else if codepoint < 0x10000 then appendHex codepoint
  else
    -- 20 bits as a surrogate pair
    let codepoint := codepoint - 0x10000
    appendHex (0xd800 + (codepoint >>> 10 &&& 0x3ff)) ++ appendHex (0xdc00 + (codepoint &&& 0x3ff))

/-- The loop of `valueToQuotedStringN`. `skip` counts the bytes that `utf8ToCodepoint` has already
moved past. -/
def escapeLoop : Nat → Bytes → Bytes
  | _, [] => []
  | skip + 1, _ :: s => escapeLoop skip s
  | 0, c :: s =>
    match c with
    | 0x22 => 0x5c :: 0x22 :: escapeLoop 0 s
    | 0x5c => 0x5c :: 0x5c :: escapeLoop 0 s
    | 0x08 => 0x5c :: 0x62 :: escapeLoop 0 s
    | 0x0c => 0x5c :: 0x66 :: escapeLoop 0 s
    | 0x0a => 0x5c :: 0x6e :: escapeLoop 0 s
    | 0x0d => 0x5c :: 0x72 :: escapeLoop 0 s
    | 0x09 => 0x5c :: 0x74 :: escapeLoop 0 s
    | c => escapeCodepoint (utf8ToCodepoint c s).1 ++ escapeLoop (utf8ToCodepoint c s).2 s

/-- `valueToQuotedStringN`. A text that needs no escaping is appended as a C string, which ends at
a NUL. -/
def valueToQuotedStringN (s : Bytes) : Bytes :=
  if doesAnyCharRequireEscaping s then 0x22 :: escapeLoop 0 s ++ [0x22]
  else 0x22 :: s.takeWhile (· ≠ 0) ++ [0x22]

namespace FastWriter

mutual

/-- `FastWriter::writeValue`. -/
def writeValue : Value → Bytes
  | .null => ascii "null"
  | .int i => intToString i
  | .uint n => uintToString n
  | .real d => d.valueToString
  | .string s => valueToQuotedStringN s.bytes
  | .bool b => ascii (if b then "true" else "false")
  | .array xs => 0x5b :: writeElements true xs ++ [0x5d]
  | .object ms => 0x7b :: writeMembers true ms ++ [0x7d]

/-- The loop over the elements of an array; `first` is `index == 0`. -/
def writeElements (first : Bool) : List Value → Bytes
  | [] => []
  | x :: xs => (if first then [] else [0x2c]) ++ writeValue x ++ writeElements false xs

/-- The loop over the members of an object; `first` is `it == members.begin()`. -/
def writeMembers (first : Bool) : List (Bytes × Value) → Bytes
  | [] => []
  | (name, x) :: ms =>
    (if first then [] else [0x2c]) ++ valueToQuotedStringN name ++ [0x3a] ++ writeValue x ++
      writeMembers false ms

end

/-- `FastWriter::write`. -/
def write (root : Value) : Bytes := writeValue root ++ [0x0a]

end FastWriter

end RocksdbService.Json
