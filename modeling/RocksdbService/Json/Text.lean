import Mathlib.Algebra.Group.Int.Defs
import Mathlib.Algebra.Group.Nat.Defs
import Mathlib.Data.List.Lex
import Mathlib.Tactic.Common

/-! # Bytes and texts

The service handles byte strings (`std::string`, `char*` with a length). `char` is compared as
`unsigned char`, which is how `memcmp`, `std::string::compare` and the range tests below see it. -/

namespace RocksdbService

/-- `char`, seen as `unsigned char`. -/
abbrev Byte := UInt8

/-- `std::string`. -/
abbrev Bytes := List Byte

/-- The bytes of an ASCII literal. -/
def ascii (s : String) : Bytes := s.toList.map Char.toUInt8

/-- The order of `memcmp`. -/
instance linearOrderByte : LinearOrder UInt8 where
  le_refl := UInt8.le_refl
  le_trans _ _ _ := UInt8.le_trans
  le_antisymm _ _ := UInt8.le_antisymm
  le_total := UInt8.le_total
  lt_iff_le_not_ge a b := by
    rw [UInt8.lt_iff_toNat_lt, UInt8.le_iff_toNat_le, UInt8.le_iff_toNat_le]; omega
  toDecidableLE := inferInstance
  toDecidableLT := inferInstance

instance decidableMemBytes (s : Bytes) (l : List Bytes) : Decidable (s ∈ l) := inferInstance

namespace Json

/-- `c >= '0' && c <= '9'`. -/
def isDigit (c : Byte) : Bool := 0x30 ≤ c && c ≤ 0x39

/-- The characters `OurReader::skipSpaces` passes. -/
def isSpace (c : Byte) : Bool := c = 0x20 || c = 0x09 || c = 0x0d || c = 0x0a

/-- The digit characters of `n`, most significant first, as `uintToString` writes them. -/
def uintToString (n : Nat) : Bytes := (Nat.toDigits 10 n).map Char.toUInt8

/-- `valueToString(LargestInt)`. -/
def intToString (i : Int) : Bytes :=
  if i < 0 then 0x2d :: uintToString i.natAbs else uintToString i.natAbs

end Json

end RocksdbService
