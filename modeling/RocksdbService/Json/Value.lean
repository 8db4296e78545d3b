import RocksdbService.Json.Double
import RocksdbService.Theory.Outcome
import RocksdbService.Theory.OrdMap

/-! # `Json::Value`

The value type of `json_value.cc` and the accessors the service calls. An object is the
`std::map<CZString, Value>` behind it, an ordered map (`OrdMap`) from member names; an array is
the same map keyed by consecutive indices, here a list. A failed `JSON_ASSERT_MESSAGE` throws
`Json::LogicError`. -/

namespace RocksdbService.Json

/-- The longest string a `Value` holds, from the assertion in `duplicateAndPrefixStringValue`. -/
def maxStringLength : Nat := 2147483642

/-- The string payload of a `Value`. -/
structure JString where
  bytes : Bytes
  fits : bytes.length ≤ maxStringLength
  deriving DecidableEq

inductive Value
  | null
  | int (i : Int)
  | uint (n : Nat)
  | real (d : Double)
  | string (s : JString)
  | bool (b : Bool)
  | array (xs : List Value)
  | object (ms : List (Bytes × Value))

/-- The map behind an object. -/
abbrev Members := List (Bytes × Value)

namespace Value

instance : Inhabited Value := ⟨null⟩

/-- `Value::Value(const String&)`. The length is cast to `unsigned` before it is checked. -/
def ofString (s : Bytes) : Outcome Value :=
  if h : s.length % 2 ^ 32 ≤ maxStringLength then
    .ok (.string ⟨s.take (s.length % 2 ^ 32), (List.length_take_le _ _).trans h⟩)
  else
    .error (.exception
      "in Json::Value::duplicateAndPrefixStringValue(): length too big for prefixing")

/-- `Value::asString`. -/
def asString : Value → Outcome Bytes
  | null => .ok []
  | string s => .ok s.bytes
  | bool b => .ok (ascii (if b then "true" else "false"))
  | int i => .ok (intToString i)
  | uint n => .ok (uintToString n)
  | real d => .ok d.valueToString
  | array _ | object _ => .error (.exception "Type is not convertible to string")

/-- `Value::minInt`. -/
def minInt : Int := -2147483648

/-- `Value::maxInt`. -/
def maxInt : Int := 2147483647

/-- `Value::asInt`. -/
def asInt : Value → Outcome Int
  | int i =>
    if minInt ≤ i ∧ i ≤ maxInt then .ok i else .error (.exception "LargestInt out of Int range")
  | uint n =>
    if (n : Int) ≤ maxInt then .ok n else .error (.exception "LargestUInt out of Int range")
  | real d =>
    if d.inRange minInt maxInt then .ok d.trunc
    else .error (.exception "double out of Int range")
  | null => .ok 0
  | bool b => .ok (if b then 1 else 0)
  | string _ | array _ | object _ => .error (.exception "Value is not convertible to Int.")

/-- `Value::asUInt64`. The range test of a double is against `2 ^ 64`, to which `maxUInt64` rounds
as a double; casting `2 ^ 64` itself is undefined. -/
def asUInt64 : Value → Outcome Nat
  | int i =>
    if 0 ≤ i then .ok i.toNat else .error (.exception "LargestInt out of UInt64 range")
  | uint n => .ok n
  | real d =>
    if d.inRange 0 (2 ^ 64) then
      if d.trunc < 2 ^ 64 then .ok d.trunc.toNat else .error .undefined
    else .error (.exception "double out of UInt64 range")
  | null => .ok 0
  | bool b => .ok (if b then 1 else 0)
  | string _ | array _ | object _ => .error (.exception "Value is not convertible to UInt64.")

/-- `Value::asBool`. -/
def asBool : Value → Outcome Bool
  | bool b => .ok b
  | null => .ok false
  | int i => .ok (i ≠ 0)
  | uint n => .ok (n ≠ 0)
  | real d => .ok d.truthy
  | string _ | array _ | object _ => .error (.exception "Value is not convertible to bool.")

/-- The member that `find` returns, null when there is none. -/
def member : Value → Bytes → Value
  | object ms, key => (OrdMap.find? ms key).getD null
  | _, _ => null

/-- `Value::operator[](String const&) const`. -/
def constIndex (v : Value) (key : Bytes) : Outcome Value :=
  match v with
  | null | object _ => .ok (v.member key)
  | _ => .error (.exception
      "in Json::Value::find(begin, end): requires objectValue or nullValue")

/-- `Value::resolveReference(key, end)`, the non-constant `operator[]`: the member referred to and
the value after the call. A null value becomes an object, a missing member is inserted as null. -/
def resolveReference (v : Value) (key : Bytes) : Outcome (Value × Value) :=
  match v with
  | null => .ok (null, object [(key, null)])
  | object ms =>
    match OrdMap.find? ms key with
    | some x => .ok (x, v)
    | none => .ok (null, object (OrdMap.insert ms key null))
  | _ => .error (.exception
      "in Json::Value::resolveReference(key, end): requires objectValue")

/-- `v[key] = x`. -/
def assign (v : Value) (key : Bytes) (x : Value) : Outcome Value :=
  match v with
  | null => .ok (object [(key, x)])
  | object ms => .ok (object (OrdMap.insert ms key x))
  | _ => .error (.exception
      "in Json::Value::resolveReference(key, end): requires objectValue")

/-- `Value::getMemberNames`. -/
def getMemberNames : Value → Outcome (List Bytes)
  | null => .ok []
  | object ms => .ok (ms.map Prod.fst)
  | _ => .error (.exception "in Json::Value::getMemberNames(), value must be objectValue")

/-- `Value::size`. -/
def size : Value → Nat
  | array xs => xs.length
  | object ms => ms.length
  | _ => 0

/-- `Value::operator[](ArrayIndex)`, read. -/
def at? (v : Value) (index : Nat) : Outcome Value :=
  match v with
  | null => .ok null
  | array xs => .ok (xs.getD index null)
  | _ => .error (.exception "in Json::Value::operator[](ArrayIndex): requires arrayValue")

/-- What an iteration from `begin()` to `end()` sees: `key().asString()` and the element. -/
def entries : Value → List (Bytes × Value)
  | object ms => ms
  | array xs => xs.mapIdx fun i x => (uintToString i, x)
  | _ => []

/-- `isConvertibleTo(stringValue)`: neither an array nor an object. -/
def isStringLike : Value → Bool
  | array _ | object _ => false
  | _ => true

/-- `type() == nullValue || type() == objectValue`, what member access asks of a value. -/
def isObjectLike : Value → Bool
  | null | object _ => true
  | _ => false

theorem asString_eq_ok_iff {v : Value} : Outcome.Returns v.asString ↔ v.isStringLike := by
  cases v <;> simp [asString, isStringLike]

/-- Member access returns the member and does not change what any name refers to. -/
theorem resolveReference_eq {v : Value} (h : v.isObjectLike) (key : Bytes) :
    ∃ ms, v.resolveReference key = .ok (v.member key, object ms) ∧
      ∀ k, (object ms).member k = v.member k := by
  cases v with
  | null =>
    refine ⟨[(key, null)], rfl, fun k => ?_⟩
    simp only [member, OrdMap.find?]
    split <;> rfl
  | object ms =>
    simp only [resolveReference, member]
    cases hf : OrdMap.find? ms key with
    | some x => exact ⟨ms, rfl, fun _ => rfl⟩
    | none =>
      refine ⟨_, rfl, fun k => ?_⟩
      rw [OrdMap.find?_insert]
      split
      · next heq => subst heq; rw [hf]; rfl
      · rfl
  | _ => cases h

theorem resolveReference_error {v : Value} (h : ¬ v.isObjectLike) (key : Bytes) :
    v.resolveReference key = .error (.exception
      "in Json::Value::resolveReference(key, end): requires objectValue") := by
  cases v <;> first | rfl | exact absurd rfl h

theorem ofString_eq_ok {s : Bytes} (h : s.length ≤ maxStringLength) :
    ofString s = .ok (.string ⟨s, h⟩) := by
  have hlt : s.length % 2 ^ 32 = s.length :=
    Nat.mod_eq_of_lt (lt_of_le_of_lt h (by decide))
  have hfits : s.length % 2 ^ 32 ≤ maxStringLength := by rwa [hlt]
  unfold ofString
  rw [dif_pos hfits]
  simp only [hlt, List.take_length]

end Value

end RocksdbService.Json
