import RocksdbService.Json.Value

/-! # `Json::OurReader`

The reader of `json_reader.cc` under the settings that both `main` and `exec_json` use: the defaults
of `CharReaderBuilder::setDefaults` with `collectComments` off (comments and trailing commas
allowed; no special floats, single quotes, numeric keys or dropped nulls; duplicate keys and
trailing text accepted; a byte order mark skipped; `stackLimit` 1000).

The position `current_` is the list of bytes still to read, `nodes_.size()` is the argument `depth`.
A syntax error fails the whole document whatever `recoverFromError` skips afterwards, so the reader
stops at the first one with its message. -/

namespace RocksdbService.Json

/-- Why the reader stops before the end of a value. -/
inductive Stop
  /-- `addError`: the document is rejected with this message. -/
  | syntaxError (message : Bytes)
  /-- An exception leaves the reader. -/
  | fault (f : Fault)
  deriving DecidableEq

abbrev ReadM (α : Type) := Except Stop α

namespace OurReader

inductive TokenType
  | endOfStream | objectBegin | objectEnd | arrayBegin | arrayEnd | string | number | true | false
  | null | arraySeparator | memberSeparator | comment | error
  deriving DecidableEq, Repr

/-- A token; `text` is `[start_, end_)` for a string or a number, the tokens that are decoded. -/
structure Token where
  type : TokenType
  text : Bytes := []

/-- What `readToken` leaves: its result, the token, and the bytes from `current_` on. -/
abbrev TokenResult := Bool × Token × Bytes

/-- `features_.stackLimit_`. -/
def stackLimit : Nat := 1000

def addError (message : String) {α : Type} : ReadM α := .error (.syntaxError (ascii message))

def throwRuntimeError (what : String) {α : Type} : ReadM α := .error (.fault (.exception what))

/-! ## Tokens -/

/-- `skipSpaces`. -/
def skipSpaces (s : Bytes) : Bytes := s.dropWhile isSpace

/-- `skipBom`. -/
def skipBom : Bytes → Bytes
  | 0xef :: 0xbb :: 0xbf :: s => s
  | s => s

/-- `match`: the pattern is passed if the text starts with it. -/
def matchPattern (pattern s : Bytes) : Bool × Bytes :=
  if pattern.isPrefixOf s then (true, s.drop pattern.length) else (false, s)

/-- `readCStyleComment`. The loop stops before the last byte, which is then compared with `/`. -/
def readCStyleComment : Bytes → Bool × Bytes
  | [] => (false, [])
  | [c] => (c = 0x2f, [])
  | c :: d :: s => if c = 0x2a ∧ d = 0x2f then (true, s) else readCStyleComment (d :: s)

/-- `readCppStyleComment`. -/
def readCppStyleComment : Bytes → Bytes
  | [] => []
  | c :: s =>
    if c = 0x0a then s
    else if c = 0x0d then
      match s with
      | 0x0a :: s => s
      | s => s
    else readCppStyleComment s

/-- `readComment`, after the first `/`. -/
def readComment : Bytes → Bool × Bytes
  | [] => (false, [])
  | c :: s =>
    if c = 0x2a then readCStyleComment s
    else if c = 0x2f then (true, readCppStyleComment s)
    else (false, s)

/-- `readString`, after the opening quote: whether it is closed, the bytes passed with the closing
quote, and the rest. -/
def readString : Bytes → Bool × Bytes × Bytes
  | [] => (false, [], [])
  | c :: s =>
    if c = 0x5c then
      match s with
      | [] => (false, [c], [])
      | e :: s => let r := readString s; (r.1, c :: e :: r.2.1, r.2.2)
    else if c = 0x22 then (true, [c], s)
    else let r := readString s; (r.1, c :: r.2.1, r.2.2)

/-- The fractional part `readNumber` passes. -/
def readFraction : Bytes → Bytes × Bytes
  | 0x2e :: s => (0x2e :: s.takeWhile isDigit, s.dropWhile isDigit)
  | s => ([], s)

/-- The sign `readNumber` passes in an exponent. -/
def readExponentSign : Bytes → Bytes × Bytes
  | 0x2b :: s => ([0x2b], s)
  | 0x2d :: s => ([0x2d], s)
  | s => ([], s)

/-- The exponential part `readNumber` passes. -/
def readExponent : Bytes → Bytes × Bytes
  | [] => ([], [])
  | c :: s =>
    if c = 0x65 ∨ c = 0x45 then
      let (sign, s) := readExponentSign s
      (c :: sign ++ s.takeWhile isDigit, s.dropWhile isDigit)
    else ([], c :: s)

/-- `readNumber`, after the first character: the bytes passed and the rest. -/
def readNumber (s : Bytes) : Bytes × Bytes :=
  let (frac, s₁) := readFraction (s.dropWhile isDigit)
  let (exp, s₂) := readExponent s₁
  (s.takeWhile isDigit ++ frac ++ exp, s₂)

/-- The case of `readToken` for a sign, where `readNumber` also looks for an infinity. -/
def readSignedNumber (sign : Byte) : Bytes → TokenResult
  | 0x49 :: s => (false, ⟨.error, []⟩, s)
  | s => (true, ⟨.number, sign :: (readNumber s).1⟩, (readNumber s).2)

/-- The case of `readToken` for a literal. -/
def readLiteral (type : TokenType) (pattern s : Bytes) : TokenResult :=
  let (ok, rest) := matchPattern pattern s
  (ok, ⟨if ok then type else .error, []⟩, rest)

/-- `readToken`. -/
def readToken (s : Bytes) : TokenResult :=
  match skipSpaces s with
  | [] => (true, ⟨.endOfStream, []⟩, [])
  | c :: s =>
    match c with
    | 0x7b => (true, ⟨.objectBegin, []⟩, s)
    | 0x7d => (true, ⟨.objectEnd, []⟩, s)
    | 0x5b => (true, ⟨.arrayBegin, []⟩, s)
    | 0x5d => (true, ⟨.arrayEnd, []⟩, s)
    | 0x22 =>
      let (ok, text, rest) := readString s
      (ok, ⟨if ok then .string else .error, 0x22 :: text⟩, rest)
    | 0x2f =>
      let (ok, rest) := readComment s
      (ok, ⟨if ok then .comment else .error, []⟩, rest)
    | 0x2d => readSignedNumber 0x2d s
    | 0x2b => readSignedNumber 0x2b s
    | 0x74 => readLiteral .true (ascii "rue") s
    | 0x66 => readLiteral .false (ascii "alse") s
    | 0x6e => readLiteral .null (ascii "ull") s
    | 0x2c => (true, ⟨.arraySeparator, []⟩, s)
    | 0x3a => (true, ⟨.memberSeparator, []⟩, s)
    -- a NUL byte is taken for the 0 that `getNextChar` returns at the end
    | 0x00 => (true, ⟨.endOfStream, []⟩, s)
    | c =>
      if isDigit c then (true, ⟨.number, c :: (readNumber s).1⟩, (readNumber s).2)
      else (false, ⟨.error, []⟩, s)

/-- Read tokens until one is not a comment, `n` of them at most. -/
def skipCommentTokensFrom : Nat → Bytes → TokenResult
  | 0, s => readToken s
  | n + 1, s =>
    let r := readToken s
    if r.2.1.type = .comment then skipCommentTokensFrom n r.2.2 else r

/-- `skipCommentTokens`, and the loops over comment tokens in `readObject` and `readArray`. -/
def skipCommentTokens (s : Bytes) : TokenResult := skipCommentTokensFrom s.length s

/-! ## Decoding -/

/-- A hexadecimal digit of `decodeUnicodeEscapeSequence`. -/
def hexValue (c : Byte) : Option Nat :=
  if 0x30 ≤ c ∧ c ≤ 0x39 then some (c.toNat - 0x30)
  else if 0x61 ≤ c ∧ c ≤ 0x66 then some (c.toNat - 0x61 + 10)
  else if 0x41 ≤ c ∧ c ≤ 0x46 then some (c.toNat - 0x41 + 10)
  else none

/-- `decodeUnicodeEscapeSequence`. -/
def decodeUnicodeEscapeSequence (s : Bytes) : ReadM Nat :=
  if s.length < 4 then
    addError "Bad unicode escape sequence in string: four digits expected."
  else
    match (s.take 4).mapM hexValue with
    | some ds => .ok (ds.foldl (fun unicode d => unicode * 16 + d) 0)
    | none => addError "Bad unicode escape sequence in string: hexadecimal digit expected."

/-- `decodeUnicodeCodePoint`, after `\u`: the code point and how many bytes it takes. Any second
escape completes a high surrogate. -/
def decodeUnicodeCodePoint (s : Bytes) : ReadM (Nat × Nat) := do
  let unicode ← decodeUnicodeEscapeSequence s
  if 0xd800 ≤ unicode ∧ unicode ≤ 0xdbff then
    let s := s.drop 4
    if s.length < 6 then
      addError "additional six characters expected to parse unicode surrogate pair."
    else if s.take 2 = [0x5c, 0x75] then
      let surrogatePair ← decodeUnicodeEscapeSequence (s.drop 2)
      return (0x10000 + ((unicode &&& 0x3ff) <<< 10) + (surrogatePair &&& 0x3ff), 10)
    else
      addError ("expecting another \\u token to begin the second half of " ++
        "a unicode surrogate pair")
  else
    return (unicode, 4)

/-- `codePointToUTF8`. -/
def codePointToUTF8 (cp : Nat) : Bytes :=
  if cp ≤ 0x7f then [cp.toUInt8]
  else if cp ≤ 0x7ff then
    [(0xc0 ||| 0x1f &&& cp >>> 6).toUInt8, (0x80 ||| 0x3f &&& cp).toUInt8]
  else if cp ≤ 0xffff then
    [(0xe0 ||| 0xf &&& cp >>> 12).toUInt8, (0x80 ||| 0x3f &&& cp >>> 6).toUInt8,
      (0x80 ||| 0x3f &&& cp).toUInt8]
  else if cp ≤ 0x10ffff then
    [(0xf0 ||| 0x7 &&& cp >>> 18).toUInt8, (0x80 ||| 0x3f &&& cp >>> 12).toUInt8,
      (0x80 ||| 0x3f &&& cp >>> 6).toUInt8, (0x80 ||| 0x3f &&& cp).toUInt8]
  else []

/-- The character a one-letter escape stands for. -/
def simpleEscape : Byte → Option Byte
  | 0x22 => some 0x22
  | 0x2f => some 0x2f
  | 0x5c => some 0x5c
  | 0x62 => some 0x08
  | 0x66 => some 0x0c
  | 0x6e => some 0x0a
  | 0x72 => some 0x0d
  | 0x74 => some 0x09
  | _ => none

/-- The loop of `decodeString`. `skip` counts the bytes already taken by an escape. -/
def decodeChars : Nat → Bytes → ReadM Bytes
  | _, [] => .ok []
  | skip + 1, _ :: s => decodeChars skip s
  | 0, c :: s =>
    if c = 0x22 then .ok []
    else if c = 0x5c then
      match s with
      | [] => addError "Empty escape sequence in string"
      | escape :: s' =>
        if escape = 0x75 then do
          let (unicode, taken) ← decodeUnicodeCodePoint s'
          return codePointToUTF8 unicode ++ (← decodeChars (taken + 1) s)
        else
          match simpleEscape escape with
          | some b => do return b :: (← decodeChars 1 s)
          | none => addError "Bad escape sequence in string"
    else do return c :: (← decodeChars 0 s)

/-- `decodeString` of a string token, its quotes included. -/
def decodeString (text : Bytes) : ReadM Bytes := decodeChars 0 text.tail.dropLast

/-- `decodeDouble`. -/
def decodeDouble (text : Bytes) : ReadM Value :=
  match Double.read text with
  | some d => .ok (.real d)
  | none => .error (.syntaxError (0x27 :: text ++ ascii "' is not a number."))

/-- The loop of `decodeNumber`; `none` when it falls back to a double. -/
def decodeDigits (threshold maxLastDigit : Nat) : Nat → Bytes → Option Nat
  | value, [] => some value
  | value, c :: s =>
    if !isDigit c then none
    else
      let digit := c.toNat - 0x30
      if threshold ≤ value ∧ (threshold < value ∨ s ≠ [] ∨ maxLastDigit < digit) then none
      else decodeDigits threshold maxLastDigit (value * 10 + digit) s

/-- `decodeNumber` of a number token. -/
def decodeNumber : Bytes → ReadM Value
  | 0x2d :: s =>
    match decodeDigits 922337203685477580 8 0 s with
    | some value => .ok (.int (-((value / 10 : Nat) : Int) * 10 - ((value % 10 : Nat) : Int)))
    | none => decodeDouble (0x2d :: s)
  | s =>
    match decodeDigits 1844674407370955161 5 0 s with
    | some value => .ok (if value ≤ 9223372036854775807 then .int value else .uint value)
    | none => decodeDouble s

/-- `Value decoded(decoded_string)`. -/
def stringValue (s : Bytes) : ReadM Value :=
  match Value.ofString s with
  | .ok v => .ok v
  | .error f => .error (.fault f)

/-! ## Values

`fuel` bounds the recursion; with twice the number of bytes it is never reached with bytes left
(`RocksdbService.Verify.Reader`), and the clauses for 0 are what each function does at the end of
the document. -/

/-- `readValue` where nothing is left to read. -/
def readValueAtEnd (depth : Nat) {α : Type} : ReadM α :=
  if stackLimit < depth then throwRuntimeError "Exceeded stackLimit in readValue()."
  else addError "Syntax error: value, object or array expected."

/-- The cases of `readValue` for a token that is a value by itself. -/
def readScalar (token : Token) : ReadM Value :=
  match token.type with
  | .number => decodeNumber token.text
  | .string => do stringValue (← decodeString token.text)
  | .true => .ok (.bool true)
  | .false => .ok (.bool false)
  | .null => .ok .null
  | _ => addError "Syntax error: value, object or array expected."

/-- The part of the loop of `readObject` before a member's value: the name, none at the closing
brace, and what follows the colon. -/
def readMemberName (s : Bytes) : ReadM (Option Bytes × Bytes) :=
  let (ok, tokenName, s₁) := skipCommentTokens s
  if !ok then addError "Missing '\x7d' or object member name"
  else if tokenName.type = .objectEnd then .ok (none, s₁)
  else if tokenName.type ≠ .string then addError "Missing '\x7d' or object member name"
  else do
    let name ← decodeString tokenName.text
    if 2 ^ 30 ≤ name.length then throwRuntimeError "keylength >= 2^30"
    else
      let (ok, colon, s₂) := readToken s₁
      if !ok || colon.type ≠ .memberSeparator then
        addError "Missing ':' after object member name"
      else .ok (some name, s₂)

/-- The part of the loop of `readObject` after a member's value: whether the brace is closed, and
what follows. Any token that follows a comment here stands for the comma. -/
def readMemberEnd (s : Bytes) : ReadM (Bool × Bytes) :=
  let (ok, comma, s₁) := readToken s
  if !ok || (comma.type ≠ .objectEnd && comma.type ≠ .arraySeparator &&
      comma.type ≠ .comment) then
    addError "Missing ',' or '\x7d' in object declaration"
  else
    let (_, comma, s₂) := if comma.type = .comment then skipCommentTokens s₁ else (ok, comma, s₁)
    .ok (comma.type = .objectEnd, s₂)

/-- The part of the loop of `readArray` after an element: whether the bracket is closed, and what
follows. -/
def readElementEnd (s : Bytes) : ReadM (Bool × Bytes) :=
  let (ok, token, s₁) := skipCommentTokens s
  if !ok || (token.type ≠ .arraySeparator && token.type ≠ .arrayEnd) then
    addError "Missing ',' or ']' in array declaration"
  else .ok (token.type = .arrayEnd, s₁)

mutual

/-- `readValue`, with `depth` nodes on the stack. -/
def readValue : (fuel depth : Nat) → Bytes → ReadM (Value × Bytes)
  | 0, depth, _ => readValueAtEnd depth
  | fuel + 1, depth, s =>
    if stackLimit < depth then throwRuntimeError "Exceeded stackLimit in readValue()."
    else
      let (_, token, rest) := skipCommentTokens s
      if token.type = .objectBegin then readObject fuel depth [] rest
      else if token.type = .arrayBegin then readArray fuel depth [] rest
      else do return (← readScalar token, rest)

/-- One turn of the loop of `readObject`; `ms` are the members read so far. -/
def readObject : (fuel depth : Nat) → Members → Bytes → ReadM (Value × Bytes)
  | 0, _, _, _ => addError "Missing '\x7d' or object member name"
  | fuel + 1, depth, ms, s => do
    match ← readMemberName s with
    | (none, s₁) => return (.object ms, s₁)
    | (some name, s₁) =>
      let (value, s₂) ← readValue fuel (depth + 1) s₁
      let (closed, s₃) ← readMemberEnd s₂
      if closed then return (.object (OrdMap.insert ms name value), s₃)
      else readObject fuel depth (OrdMap.insert ms name value) s₃

/-- One turn of the loop of `readArray`; `xs` are the elements read so far. -/
def readArray : (fuel depth : Nat) → List Value → Bytes → ReadM (Value × Bytes)
  | 0, depth, _, _ => readValueAtEnd (depth + 1)
  | fuel + 1, depth, xs, s =>
    match skipSpaces s with
    | 0x5d :: s₁ => .ok (.array xs, s₁)
    | s₁ => do
      let (value, s₂) ← readValue fuel (depth + 1) s₁
      let (closed, s₃) ← readElementEnd s₂
      if closed then return (.array (xs ++ [value]), s₃)
      else readArray fuel depth (xs ++ [value]) s₃

end

/-- `parse`. What follows the value is ignored, since `failIfExtra` is off. -/
def parse (doc : Bytes) : ReadM (Value × Bytes) :=
  let s := skipBom doc
  readValue (2 * s.length) 1 s

end OurReader

/-- `parseFromStream(builder, sin, &root, &errs)`: the root of an accepted document, or the
message of the error that rejects it. -/
def parseFromStream (doc : Bytes) : Outcome (Except Bytes Value) :=
  match OurReader.parse doc with
  | .ok (root, _) => .ok (.ok root)
  | .error (.syntaxError message) => .ok (.error message)
  | .error (.fault f) => .error f

end RocksdbService.Json
