import RocksdbService.Json.Text

/-! # Doubles

The three things the program does with a `double`: read one from the text of a number
(`istream >> double`, that is `strtod` in the C locale, rounding to nearest, ties to even), print
one (`valueToString(double)`, that is `printf` with `%.17g`), and compare or truncate one
(`Value::asInt`, `Value::asUInt64`, `Value::asBool`). A finite double is `± mant * 2 ^ exp`. -/

namespace RocksdbService

inductive Double
  | nan
  | inf (neg : Bool)
  | finite (neg : Bool) (mant : Nat) (exp : Int)
  deriving DecidableEq, Repr

namespace Double

/-- The fraction `num / den * b ^ e`, with the power on the side where it is whole. -/
def scale (b : Nat) (e : Int) (num den : Nat) : Nat × Nat :=
  if 0 ≤ e then (num * b ^ e.toNat, den) else (num, den * b ^ (-e).toNat)

/-- `num / den` rounded to the nearest integer, ties to even. -/
def roundHalfEven (num den : Nat) : Nat :=
  let q := num / den
  let r := num % den
  if 2 * r < den ∨ 2 * r = den ∧ q % 2 = 0 then q else q + 1

/-- The double nearest to `± num / den`; an infinity when the exponent overflows. -/
def ofFraction (neg : Bool) (num den : Nat) : Double :=
  if num = 0 then finite neg 0 0
  else
    let e₀ : Int := (Nat.log2 num : Int) - Nat.log2 den - 52
    let (n₀, d₀) := scale 2 (-e₀) num den
    let e := max (if n₀ < 2 ^ 52 * d₀ then e₀ - 1 else e₀) (-1074)
    let (n, d) := scale 2 (-e) num den
    let m := roundHalfEven n d
    let (m, e) := if m = 2 ^ 53 then (2 ^ 52, e + 1) else (m, e)
    if 971 < e then inf neg else finite neg m e

/-- The number a list of digit characters spells. -/
def digitsValue (ds : Bytes) : Nat := ds.foldl (fun n c => 10 * n + (c.toNat - 0x30)) 0

/-- An optional sign: whether it is `-`, and the rest. -/
def readSign : Bytes → Bool × Bytes
  | 0x2d :: s => (true, s)
  | 0x2b :: s => (false, s)
  | s => (false, s)

/-- The exponent part, `none` if it has no digits. -/
def readExponent : Bytes → Option Int
  | [] => some 0
  | _ :: s =>
    let (neg, s) := readSign s
    let ds := s.takeWhile Json.isDigit
    if ds = [] then none else some (if neg then -(digitsValue ds : Int) else digitsValue ds)

/-- `is >> value` on the text of a number token; `none` when nothing can be extracted. A number
too large for a double reads as an infinity, as `decodeDouble` makes of the overflow result. -/
def read (s : Bytes) : Option Double :=
  let (neg, s) := readSign s
  let (whole, s) := s.span Json.isDigit
  let (frac, s) :=
    match s with
    | 0x2e :: s => s.span Json.isDigit
    | s => ([], s)
  if whole = [] ∧ frac = [] then none
  else
    (readExponent s).map fun e =>
      let (n, d) := scale 10 (e - frac.length) (digitsValue (whole ++ frac)) 1
      ofFraction neg n d

/-- The largest `x ≤ hi` within `n` steps with `10 ^ x ≤ num / den`. -/
def decimalExponentFrom (num den : Nat) : Nat → Int → Int
  | 0, x => x
  | n + 1, x =>
    let (a, b) := scale 10 x 1 1
    if a * den ≤ num * b then x else decimalExponentFrom num den n (x - 1)

/-- The `n` last decimal digits of `m`, most significant first. -/
def digits : Nat → Nat → Bytes
  | 0, _ => []
  | n + 1, m => digits n (m / 10) ++ [(0x30 + m % 10).toUInt8]

/-- A list of digits without its trailing zeros. -/
def stripZeros (ds : Bytes) : Bytes := (ds.reverse.dropWhile (· = 0x30)).reverse

/-- A fractional part with its point, nothing when it is empty. -/
def point (ds : Bytes) : Bytes := if ds = [] then [] else 0x2e :: ds

/-- At least two digits, as `printf` writes an exponent. -/
def exponentDigits (n : Nat) : Bytes :=
  if n < 10 then [0x30, (0x30 + n).toUInt8] else Json.uintToString n

/-- The 17 significant digits of `num / den` and their decimal exponent. -/
def significand (num den : Nat) : Nat × Int :=
  let x := decimalExponentFrom num den 632 308
  let (n, d) := scale 10 (16 - x) num den
  let m := roundHalfEven n d
  if m = 10 ^ 17 then (10 ^ 16, x + 1) else (m, x)

/-- `%.17g` of `num / den`, which is not zero. -/
def printPositive (num den : Nat) : Bytes :=
  let (m, x) := significand num den
  let ds := digits 17 m
  if -4 ≤ x ∧ x < 17 then
    if 0 ≤ x then ds.take (x.toNat + 1) ++ point (stripZeros (ds.drop (x.toNat + 1)))
    else 0x30 :: point (List.replicate ((-x).toNat - 1) 0x30 ++ stripZeros ds)
  else
    ds.take 1 ++ point (stripZeros (ds.drop 1)) ++
      (0x65 :: (if x < 0 then 0x2d else 0x2b) :: exponentDigits x.natAbs)

/-- `valueToString(double)`: `%.17g`, with `.0` added to a text that would read as an integer. -/
def valueToString : Double → Bytes
  | nan => ascii "null"
  | inf true => ascii "-1e+9999"
  | inf false => ascii "1e+9999"
  | finite neg mant exp =>
    let (num, den) := scale 2 exp mant 1
    let body := if mant = 0 then [0x30] else printPositive num den
    let s := if neg then 0x2d :: body else body
    if s.contains 0x2e || s.contains 0x65 then s else s ++ ascii ".0"

/-- `d >= k` for an integer `k`. -/
def geInt : Double → Int → Bool
  | nan, _ => false
  | inf neg, _ => !neg
  | finite neg mant exp, k =>
    let (n, d) := scale 2 exp mant 1
    if neg then k * d ≤ -(n : Int) else k * d ≤ n

/-- `d <= k` for an integer `k`. -/
def leInt : Double → Int → Bool
  | nan, _ => false
  | inf neg, _ => neg
  | finite neg mant exp, k =>
    let (n, d) := scale 2 exp mant 1
    if neg then -(n : Int) ≤ k * d else n ≤ k * d

/-- `InRange(d, min, max)` of `json_value.cc`. -/
def inRange (d : Double) (min max : Int) : Bool := d.geInt min && d.leInt max

/-- The conversion of a double to an integer type: the fraction is dropped. -/
def trunc : Double → Int
  | nan | inf _ => 0
  | finite neg mant exp =>
    let (n, d) := scale 2 exp mant 1
    if neg then -((n / d : Nat) : Int) else ((n / d : Nat) : Int)

/-- Neither zero nor NaN, the test of `Value::asBool`. -/
def truthy : Double → Bool
  | nan => false
  | inf _ => true
  | finite _ mant _ => mant ≠ 0

end Double

end RocksdbService
