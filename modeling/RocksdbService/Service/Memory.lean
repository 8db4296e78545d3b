import RocksdbService.Json.Text
import RocksdbService.Theory.Outcome

/-! # Character arrays on the heap

`new char[n]`, `delete []`, and reads and writes that are checked against the block they go to. A
pointer is a block with an offset; blocks are never reused, so a dangling pointer stays
recognisable. Every access outside a live block is undefined. -/

namespace RocksdbService

/-- A byte order. -/
inductive Endian
  | little | big
  deriving DecidableEq, Repr

namespace Endian

/-- `n` base-256 digits of `x`, least significant first. -/
def digits256 : Nat → Nat → Bytes
  | 0, _ => []
  | n + 1, x => (x % 256).toUInt8 :: digits256 n (x / 256)

/-- The number with these base-256 digits, least significant first. -/
def value256 : Bytes → Nat
  | [] => 0
  | b :: bs => b.toNat + 256 * value256 bs

/-- The object representation of a `uint32_t`. -/
def encode32 (e : Endian) (x : Nat) : Bytes :=
  match e with
  | little => digits256 4 x
  | big => (digits256 4 x).reverse

/-- The `uint32_t` with this object representation. -/
def decode32 (e : Endian) (bs : Bytes) : Nat :=
  match e with
  | little => value256 bs
  | big => value256 bs.reverse

end Endian

/-- A `char*` into the heap: a block and an offset. -/
structure Ptr where
  block : Nat
  offset : Nat := 0
  deriving DecidableEq, Repr

/-- `p + n`. -/
def Ptr.add (p : Ptr) (n : Nat) : Ptr := { p with offset := p.offset + n }

/-- The blocks that `new char[]` has returned and that are not deleted. A byte that was never
written is indeterminate. -/
structure Heap where
  blocks : Nat → Option (List (Option Byte)) := fun _ => none
  next : Nat := 0

namespace Heap

/-- The live blocks with one of them replaced. -/
def setBlock (h : Heap) (b : Nat) (x : Option (List (Option Byte))) : Heap :=
  { h with blocks := fun i => if i = b then x else h.blocks i }

/-- `new char[n]`. -/
def alloc (h : Heap) (n : Nat) : Ptr × Heap :=
  (⟨h.next, 0⟩, { h.setBlock h.next (some (List.replicate n none)) with next := h.next + 1 })

/-- `delete [] p`; a null pointer is accepted. -/
def free (h : Heap) : Option Ptr → Outcome Heap
  | none => .ok h
  | some p =>
    if p.offset = 0 ∧ (h.blocks p.block).isSome then .ok (h.setBlock p.block none)
    else .error .undefined

/-- The bytes `bs` are stored at `p`. -/
def write (h : Heap) (p : Ptr) (bs : Bytes) : Outcome Heap :=
  match h.blocks p.block with
  | none => .error .undefined
  | some old =>
    if p.offset + bs.length ≤ old.length then
      .ok (h.setBlock p.block
        (some (old.take p.offset ++ bs.map some ++ old.drop (p.offset + bs.length))))
    else .error .undefined

/-- The `n` bytes at `p`, which must all have been written. -/
def read (h : Heap) (p : Ptr) (n : Nat) : Outcome Bytes :=
  match h.blocks p.block with
  | none => .error .undefined
  | some bs =>
    if p.offset + n ≤ bs.length then
      match ((bs.drop p.offset).take n).mapM id with
      | some bs => .ok bs
      | none => .error .undefined
    else .error .undefined

end Heap

/-- What `strncpy(dest, src, n)` stores: `src` up to its first NUL, padded with NULs to `n`. -/
def strncpy (src : Bytes) (n : Nat) : Bytes :=
  let s := (src.take n).takeWhile (· ≠ 0)
  s ++ List.replicate (n - s.length) 0

end RocksdbService
