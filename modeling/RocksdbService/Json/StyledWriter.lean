import RocksdbService.Json.Writer

/-! # `Json::BuiltStyledStreamWriter`

The writer of `json_writer.cc` that `StreamWriterBuilder` makes, with the settings that decide how a
text is laid out. The other settings are left out: they have their defaults. No value has a comment, and
there is no line feed at the end. -/

namespace RocksdbService.Json

inductive CommentStyle
  | none | all
  deriving DecidableEq

/-- The settings of a `StreamWriterBuilder` that lay out the text, with `setDefaults`. Those for numbers and
characters have their defaults here: `precision` 17, `precisionType` `significant`, `useSpecialFloats` and
`emitUTF8` false. -/
structure StreamWriterBuilder where
  commentStyle : CommentStyle := .all
  indentation : Bytes := [0x09]
  enableYAMLCompatibility : Bool := false
  dropNullPlaceholders : Bool := false

/-- The members of `BuiltStyledStreamWriter` that its constructor sets. -/
structure BuiltStyledStreamWriter where
  indentation : Bytes
  cs : CommentStyle
  colonSymbol : Bytes
  nullSymbol : Bytes

/-- `StreamWriterBuilder::newStreamWriter`, the settings for numbers and characters having their defaults. -/
def StreamWriterBuilder.newStreamWriter (builder : StreamWriterBuilder) : BuiltStyledStreamWriter where
  indentation := builder.indentation
  cs := builder.commentStyle
  colonSymbol :=
    if builder.enableYAMLCompatibility then ascii ": "
    else if builder.indentation = [] then ascii ":"
    else ascii " : "
  nullSymbol := if builder.dropNullPlaceholders then [] else ascii "null"

namespace BuiltStyledStreamWriter

/-- `rightMargin_`. -/
def rightMargin : Nat := 74

/-- The stream and the members of the writer that change. -/
structure State where
  sout : Bytes := []
  childValues : List Bytes := []
  indentString : Bytes := []
  addChildValues : Bool := false
  indented : Bool := false

variable (W : BuiltStyledStreamWriter)

namespace State

/-- `*sout_ << value`. -/
def put (s : State) (value : Bytes) : State := { s with sout := s.sout ++ value }

def pushValue (s : State) (value : Bytes) : State :=
  if s.addChildValues then { s with childValues := s.childValues ++ [value] } else s.put value

def writeIndent (s : State) : State :=
  if W.indentation ≠ [] then s.put (0x0a :: s.indentString) else s

def writeWithIndent (s : State) (value : Bytes) : State :=
  { (if !s.indented then s.writeIndent W else s).put value with indented := false }

def indent (s : State) : State := { s with indentString := s.indentString ++ W.indentation }

def unindent (s : State) : Outcome State :=
  if W.indentation.length ≤ s.indentString.length then
    .ok { s with
      indentString := s.indentString.take (s.indentString.length - W.indentation.length) }
  else .error .assertion

/-- `childValues_[index]`. -/
def childValue (s : State) (index : Nat) : Outcome Bytes :=
  match s.childValues[index]? with
  | some value => .ok value
  | none => .error .undefined

end State

/-- `(isArray() || isObject()) && !empty()`. -/
def hasChildren : Value → Bool
  | .array xs => !xs.isEmpty
  | .object ms => !ms.isEmpty
  | _ => false

/-- The branch of `writeArrayValue` for an array on a single line. -/
def writeSingleLine (s : State) (size : Nat) : Outcome State :=
  if s.childValues.length = size then
    let space : Bytes := if W.indentation ≠ [] then [0x20] else []
    .ok (s.put (0x5b :: space ++ (s.childValues.intersperse (0x2c :: space)).flatten ++ space ++ [0x5d]))
  else .error .assertion

mutual

def writeValue : Value → State → Outcome State
  | .null, s => .ok (s.pushValue W.nullSymbol)
  | .int i, s => .ok (s.pushValue (intToString i))
  | .uint n, s => .ok (s.pushValue (uintToString n))
  | .real d, s => .ok (s.pushValue d.valueToString)
  | .string t, s => .ok (s.pushValue (valueToQuotedStringN t.bytes))
  | .bool b, s => .ok (s.pushValue (ascii (if b then "true" else "false")))
  -- `writeArrayValue`
  | .array xs, s =>
    if xs.isEmpty then .ok (s.pushValue (ascii "[]"))
    else do
      let (isMultiLine, s) ← if W.cs = .all then .ok (true, s) else isMultilineArray xs s
      if isMultiLine then
        let s := (s.writeWithIndent W (ascii "[")).indent W
        let s ← writeElements (!s.childValues.isEmpty) 0 xs s
        let s ← s.unindent W
        return s.writeWithIndent W (ascii "]")
      else writeSingleLine W s xs.length
  | .object ms, s =>
    if ms.isEmpty then .ok (s.pushValue (ascii "\x7b\x7d"))
    else do
      let s := (s.writeWithIndent W (ascii "\x7b")).indent W
      let s ← writeMembers ms s
      let s ← s.unindent W
      return s.writeWithIndent W (ascii "\x7d")

/-- `isMultilineArray`. The sizes are `unsigned`. -/
def isMultilineArray (xs : List Value) (s : State) : Outcome (Bool × State) :=
  let s := { s with childValues := [] }
  if rightMargin ≤ xs.length * 3 % 2 ^ 32 || xs.any hasChildren then .ok (true, s)
  else do
    let (lineLength, s) ←
      writeChildValues xs 0 ((4 + (xs.length - 1) * 2) % 2 ^ 32) { s with addChildValues := true }
    return (rightMargin ≤ lineLength, { s with addChildValues := false })

/-- The loop of `isMultilineArray` that writes the elements, from `index` on. -/
def writeChildValues : List Value → (index lineLength : Nat) → State → Outcome (Nat × State)
  | [], _, lineLength, s => .ok (lineLength, s)
  | x :: xs, index, lineLength, s => do
    let s ← writeValue x s
    let value ← s.childValue index
    writeChildValues xs (index + 1) ((lineLength + value.length) % 2 ^ 32) s

/-- The loop of `writeArrayValue` over several lines, from `index` on. -/
def writeElements (hasChildValue : Bool) : Nat → List Value → State → Outcome State
  | _, [], s => .ok s
  | index, x :: xs, s => do
    let s ←
      if hasChildValue then (s.childValue index).map (s.writeWithIndent W)
      else
        let s := if !s.indented then s.writeIndent W else s
        (writeValue x { s with indented := true }).map fun s => { s with indented := false }
    if xs.isEmpty then return s else writeElements hasChildValue (index + 1) xs (s.put [0x2c])

/-- The loop of `writeValue` over the members of an object. -/
def writeMembers : List (Bytes × Value) → State → Outcome State
  | [], s => .ok s
  | (name, x) :: ms, s => do
    let s := (s.writeWithIndent W (valueToQuotedStringN name)).put W.colonSymbol
    let s ← writeValue x s
    if ms.isEmpty then return s else writeMembers ms (s.put [0x2c])

end

/-- `write`. -/
def write (root : Value) : Outcome Bytes := do
  return (← writeValue W root { indented := true }).sout

end BuiltStyledStreamWriter

/-- `Json::writeString`. -/
def writeString (builder : StreamWriterBuilder) (root : Value) : Outcome Bytes :=
  builder.newStreamWriter.write root

end RocksdbService.Json
