import RocksdbService.Json.Value

/-! # The documents of JSON

The standard grammar as syntax trees, which keep everything that a text shows: the white space, how a
character of a string is escaped, how a number is spelled. `Doc.text` is the text of a tree and
`Doc.value` what it stands for. This is the abstract side of the reader and of the writers: neither of
them is mentioned here. -/

namespace RocksdbService.Json

/-- White space. -/
structure Blank where
  bytes : Bytes := []
  blank : ∀ c ∈ bytes, isSpace c = true := by exact List.forall_mem_nil _

/-! ## Strings -/

structure HexDigit where
  value : Fin 16
  upper : Bool := false
  deriving DecidableEq

def HexDigit.byte (d : HexDigit) : Byte :=
  if d.value.val < 10 then (0x30 + d.value.val).toUInt8
  else if d.upper then (0x37 + d.value.val).toUInt8 else (0x57 + d.value.val).toUInt8

/-- Four hexadecimal digits. -/
structure Hex4 where
  a : HexDigit
  b : HexDigit
  c : HexDigit
  d : HexDigit

namespace Hex4

def text (h : Hex4) : Bytes := [h.a.byte, h.b.byte, h.c.byte, h.d.byte]

def value (h : Hex4) : Nat := ((h.a.value * 16 + h.b.value) * 16 + h.c.value) * 16 + h.d.value

end Hex4

/-- The characters that have an escape of one letter. -/
inductive Escape
  | quote | backslash | slash | backspace | formFeed | lineFeed | carriageReturn | tab
  deriving DecidableEq

namespace Escape

def letter : Escape → Byte
  | quote => 0x22
  | backslash => 0x5c
  | slash => 0x2f
  | backspace => 0x62
  | formFeed => 0x66
  | lineFeed => 0x6e
  | carriageReturn => 0x72
  | tab => 0x74

def byte : Escape → Byte
  | quote => 0x22
  | backslash => 0x5c
  | slash => 0x2f
  | backspace => 0x08
  | formFeed => 0x0c
  | lineFeed => 0x0a
  | carriageReturn => 0x0d
  | tab => 0x09

end Escape

/-- A part of a string. -/
inductive Piece
  | raw (c : Byte) (h : 0x20 ≤ c ∧ c ≠ 0x22 ∧ c ≠ 0x5c)
  | escape (e : Escape)
  | unicode (digits : Hex4) (c : Char) (h : digits.value = c.toNat)
  /-- A character outside the basic plane, as a surrogate pair. -/
  | pair (high low : Hex4) (c : Char) (hc : 0x10000 ≤ c.toNat)
    (hhigh : high.value = 0xd800 + (c.toNat - 0x10000) / 0x400)
    (hlow : low.value = 0xdc00 + (c.toNat - 0x10000) % 0x400)

namespace Piece

def text : Piece → Bytes
  | raw c _ => [c]
  | escape e => [0x5c, e.letter]
  | unicode digits _ _ => 0x5c :: 0x75 :: digits.text
  | pair high low _ _ _ _ => 0x5c :: 0x75 :: high.text ++ 0x5c :: 0x75 :: low.text

/-- The bytes that a part of a string stands for. -/
def bytes : Piece → Bytes
  | raw c _ => [c]
  | escape e => [e.byte]
  | unicode _ c _ | pair _ _ c _ _ _ => String.utf8EncodeChar c

end Piece

/-- A string of at most `limit` bytes. -/
structure Quoted (limit : Nat) where
  pieces : List Piece
  fits : (pieces.flatMap Piece.bytes).length ≤ limit

namespace Quoted

variable {limit : Nat}

def text (s : Quoted limit) : Bytes := 0x22 :: s.pieces.flatMap Piece.text ++ [0x22]

def bytes (s : Quoted limit) : Bytes := s.pieces.flatMap Piece.bytes

end Quoted

/-! ## Numbers -/

structure Exponent where
  marker : Byte
  sign : Bytes
  digits : Bytes
  hmarker : marker = 0x65 ∨ marker = 0x45
  hsign : sign = [] ∨ sign = [0x2b] ∨ sign = [0x2d]
  hdigits : ∀ c ∈ digits, isDigit c = true
  hne : digits ≠ []

namespace Exponent

def text (e : Exponent) : Bytes := e.marker :: e.sign ++ e.digits

def value (e : Exponent) : Int :=
  if e.sign = [0x2d] then -(Double.digitsValue e.digits : Int) else Double.digitsValue e.digits

end Exponent

structure Numeral where
  neg : Bool := false
  whole : Bytes
  /-- The digits after the point, none without a point. -/
  frac : Bytes := []
  exp : Option Exponent := none
  hwhole : ∀ c ∈ whole, isDigit c = true
  hfrac : ∀ c ∈ frac, isDigit c = true
  hne : whole ≠ []
  /-- No zero in front. -/
  hzero : whole.head? = some 0x30 → whole = [0x30]

namespace Numeral

def text (n : Numeral) : Bytes :=
  (if n.neg then [0x2d] else []) ++ n.whole ++ Double.point n.frac ++
    (n.exp.map Exponent.text).getD []

/-- The double nearest to the number. -/
def nearest (n : Numeral) : Double :=
  let e := (n.exp.map Exponent.value).getD 0
  let (num, den) := Double.scale 10 (e - n.frac.length) (Double.digitsValue (n.whole ++ n.frac)) 1
  Double.ofFraction n.neg num den

/-- An integer of 64 bits is kept, any other number is a double. -/
def value (n : Numeral) : Value :=
  let m := Double.digitsValue n.whole
  if n.frac ≠ [] ∨ n.exp.isSome then .real n.nearest
  else if n.neg then if m ≤ 2 ^ 63 then .int (-m) else .real n.nearest
  else if m < 2 ^ 63 then .int m
  else if m < 2 ^ 64 then .uint m
  else .real n.nearest

end Numeral

/-! ## Documents -/

/-- The longest name of a member. -/
def maxNameLength : Nat := 2 ^ 30 - 1

mutual

inductive Doc
  | null
  | bool (b : Bool)
  | number (n : Numeral)
  | string (s : Quoted maxStringLength)
  | emptyArray (w : Blank)
  | array (xs : Elements)
  | emptyObject (w : Blank)
  | object (ms : DocMembers)

inductive Elements
  | last (before : Blank) (d : Doc) (after : Blank)
  | cons (before : Blank) (d : Doc) (after : Blank) (xs : Elements)

/-- The members in the order of the text. -/
inductive DocMembers
  | last (before : Blank) (name : Quoted maxNameLength) (colon before' : Blank) (d : Doc)
    (after : Blank)
  | cons (before : Blank) (name : Quoted maxNameLength) (colon before' : Blank) (d : Doc)
    (after : Blank) (ms : DocMembers)

end

mutual

def Doc.text : Doc → Bytes
  | .null => ascii "null"
  | .bool b => ascii (if b then "true" else "false")
  | .number n => n.text
  | .string s => s.text
  | .emptyArray w => 0x5b :: w.bytes ++ [0x5d]
  | .array xs => 0x5b :: xs.text ++ [0x5d]
  | .emptyObject w => 0x7b :: w.bytes ++ [0x7d]
  | .object ms => 0x7b :: ms.text ++ [0x7d]

def Elements.text : Elements → Bytes
  | .last before d after => before.bytes ++ d.text ++ after.bytes
  | .cons before d after xs => before.bytes ++ d.text ++ after.bytes ++ 0x2c :: xs.text

def DocMembers.text : DocMembers → Bytes
  | .last before name colon before' d after =>
    before.bytes ++ name.text ++ colon.bytes ++ 0x3a :: before'.bytes ++ d.text ++ after.bytes
  | .cons before name colon before' d after ms =>
    before.bytes ++ name.text ++ colon.bytes ++ 0x3a :: before'.bytes ++ d.text ++ after.bytes ++
      0x2c :: ms.text

end

mutual

/-- Of several members with a name the last one counts. -/
def Doc.value : Doc → Value
  | .null => .null
  | .bool b => .bool b
  | .number n => n.value
  | .string s => .string ⟨s.bytes, s.fits⟩
  | .emptyArray _ => .array []
  | .array xs => .array xs.values
  | .emptyObject _ => .object []
  | .object ms => .object (OrdMap.insertAll [] ms.members)

def Elements.values : Elements → List Value
  | .last _ d _ => [d.value]
  | .cons _ d _ xs => d.value :: xs.values

def DocMembers.members : DocMembers → List (Bytes × Value)
  | .last _ name _ _ d _ => [(name.bytes, d.value)]
  | .cons _ name _ _ d _ ms => (name.bytes, d.value) :: ms.members

end

mutual

/-- How deep values are nested, 1 for a value that contains no others. -/
def Doc.depth : Doc → Nat
  | .array xs => xs.depth + 1
  | .object ms => ms.depth + 1
  | _ => 1

def Elements.depth : Elements → Nat
  | .last _ d _ => d.depth
  | .cons _ d _ xs => max d.depth xs.depth

def DocMembers.depth : DocMembers → Nat
  | .last _ _ _ _ d _ => d.depth
  | .cons _ _ _ _ d _ ms => max d.depth ms.depth

end

/-- A whole text, with the byte order mark that some writers put in front. -/
structure Document where
  mark : Bool := false
  before : Blank := {}
  root : Doc
  after : Blank := {}

def Document.text (D : Document) : Bytes :=
  (if D.mark then [0xef, 0xbb, 0xbf] else []) ++ D.before.bytes ++ D.root.text ++ D.after.bytes

end RocksdbService.Json
