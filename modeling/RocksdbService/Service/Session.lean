import RocksdbService.Service.Memory

/-! # `class session`

The callbacks of `networkinterface.cc` as functions on the members of a session. `pending` holds
the operations whose completion the session waits for: the blocking `asio::read` of a header and
the asynchronous reads and writes, each of which keeps the session alive through `self`. A session
without pending operations is destroyed.

`exec` stands for the `exec_json` that the linker supplies, over the state `σ` of the process. -/

namespace RocksdbService

/-- What the model leaves to the machine. -/
structure Platform where
  /-- The byte order of `uint32_t`. -/
  endian : Endian
  /-- By how many bytes the block behind `out_data_` is larger than what `do_write` asks for. -/
  slack : Nat := 0

/-- A completion handler of `async_read_some`. -/
inductive ReadHandler
  /-- The lambda in `do_read`. -/
  | doRead
  /-- The lambda in `read_rest`, with what it captures. -/
  | readRest (buffer : Ptr) (length : Nat)
  deriving DecidableEq

/-- An operation that a session waits for. -/
inductive Pending
  /-- `asio::read(socket_, asio::buffer(&length, size32))`. -/
  | header
  /-- `socket_.async_read_some(asio::buffer(buffer, size), handler)`. -/
  | readSome (buffer : Ptr) (size : Nat) (handler : ReadHandler)
  /-- `asio::async_write(socket_, bytes, …)`. -/
  | write (bytes : Bytes)
  deriving DecidableEq

/-- The members of `session`. -/
structure Session where
  heap : Heap := {}
  inpData : Option Ptr := none
  outData : Option Ptr := none
  /-- `uint32_t length`, set before it is read. -/
  length : Nat := 0
  pending : List Pending := []

/-- A call of `exec_json`: its argument, its result, and the bytes that `do_write` then hands to
`async_write`. -/
structure Call where
  request : Bytes
  reply : Bytes
  frame : Bytes
  deriving DecidableEq

/-- What a handler leaves behind: the session, the state of the process, and the call of
`exec_json` it made, if any. -/
structure Handled (σ : Type) where
  session : Session
  state : σ
  call : Option Call := none

/-- `sizeof(uint32_t)`. -/
def size32 : Nat := 4

/-- The longest payload that `do_read` accepts. -/
def maxLength : Nat := 1024 * 1024

namespace Session

variable {σ : Type} (P : Platform) (exec : Bytes → σ → Outcome (Bytes × σ))

/-- The session waits for one more operation. -/
def await (s : Session) (op : Pending) : Session := { s with pending := s.pending ++ [op] }

/-- `session::read_rest`. -/
def readRest (s : Session) (buffer : Ptr) (length : Nat) : Session :=
  s.await (.readSome buffer length (.readRest buffer length))

/-- `session::do_read` up to the `asio::read`. -/
def doRead (s : Session) : Session := s.await .header

/-- `session::do_read` after the `asio::read`, which returned four bytes or threw. -/
def headerRead (s : Session) : Option Bytes → Session
  | none => s
  | some header =>
    let s := { s with length := P.endian.decode32 header }
    if s.length > maxLength then s
    else
      let (p, heap) := s.heap.alloc s.length
      { s with heap, inpData := some p }.await (.readSome p s.length .doRead)

/-- The pointer behind a member, null being undefined to access through. -/
def deref : Option Ptr → Outcome Ptr
  | some p => .ok p
  | none => .error .undefined

/-- `session::do_write`. -/
def doWrite (s : Session) (st : σ) (len : Nat) : Outcome (Handled σ) := do
  let (outData, heap) := s.heap.alloc ((len + size32) % 2 ^ 32 + P.slack)
  let s := { s with heap, outData := some outData }
  let request ← s.heap.read (← deref s.inpData) len
  let (out, st) ← exec request st
  let outLen := out.length % 2 ^ 32
  let heap ← s.heap.write (outData.add size32) (strncpy out outLen)
  let heap ← heap.write outData (P.endian.encode32 outLen)
  let bytes ← heap.read outData ((outLen + size32) % 2 ^ 32)
  return { session := { s with heap }.await (.write bytes), state := st,
           call := some ⟨request, out, bytes⟩ }

/-- The completion handler of an `async_read_some` that transferred `len` bytes, or failed. -/
def readHandler (s : Session) (st : σ) (handler : ReadHandler) (result : Option Nat) :
    Outcome (Handled σ) :=
  match handler, result with
  | .doRead, some len =>
    if len < s.length then do
      return { session := s.readRest ((← deref s.inpData).add len) (s.length - len), state := st }
    else doWrite P exec s st s.length
  | .doRead, none => return { session := s, state := st }
  | .readRest buffer length, some len =>
    if len < length then
      return { session := s.readRest (buffer.add len) (length - len), state := st }
    else doWrite P exec s st s.length
  | .readRest _ _, none => do
    return { session := { s with heap := ← s.heap.free s.inpData }, state := st }

/-- The completion handler of `async_write`. -/
def writeHandler (s : Session) (success : Bool) : Outcome Session := do
  let heap ← s.heap.free s.inpData
  let heap ← heap.free s.outData
  let s := { s with heap }
  return if success then s.doRead else s

end Session

end RocksdbService
