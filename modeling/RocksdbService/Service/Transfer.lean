import RocksdbService.Service.Network

/-! # `asio::read` and `asio::async_write`

The composed operations of `asio/impl/read.hpp` and `asio/impl/write.hpp` for a single buffer and
`transfer_all`: the blocking read of a header is a loop of `read_some`, and the write of a reply is a
chain of `async_write_some`, whose results `write_op` handles one after another. `Wire` is the server
with these in the place of a read and a write in one piece; it also has what has come to each client. -/

namespace RocksdbService

/-- `transfer_all_t`: how much the next operation may transfer, nothing after an error. -/
def transferAll (ec : Bool) : Nat := if ec then 0 else 65536

/-- `consuming_single_buffer`. -/
structure ConsumingBuffer where
  size : Nat
  totalConsumed : Nat := 0

namespace ConsumingBuffer

def empty (b : ConsumingBuffer) : Bool := b.size ≤ b.totalConsumed

/-- The size of the buffer for a single transfer. -/
def prepare (b : ConsumingBuffer) (maxSize : Nat) : Nat := min (b.size - b.totalConsumed) maxSize

def consume (b : ConsumingBuffer) (size : Nat) : ConsumingBuffer :=
  { b with totalConsumed := b.totalConsumed + size }

end ConsumingBuffer

/-- One turn of the loop of `read_buffer_seq`: the buffer, and the error code if the loop ends. -/
def readBufferSeq (b : ConsumingBuffer) (ec : Bool) (size : Nat) : ConsumingBuffer × Option Bool :=
  let b := b.consume size
  if b.empty then (b, some ec)
  else if transferAll ec = 0 then (b, some ec)
  else (b, none)

/-- `write_op::operator()` after an `async_write_some`: the buffer, and the error code if the handler of
the `async_write` is called. -/
def writeOp (b : ConsumingBuffer) (ec : Bool) (bytesTransferred : Nat) :
    ConsumingBuffer × Option Bool :=
  let b := b.consume bytesTransferred
  if (!ec && bytesTransferred = 0) || b.empty then (b, some ec)
  else if transferAll ec = 0 then (b, some ec)
  else (b, none)

/-- The progress of the composed operations of a connection. -/
structure Transfer where
  /-- The bytes of `length` that have been read. -/
  header : Bytes := []
  /-- How much of the reply the `write_op` has consumed. -/
  consumed : Nat := 0
  /-- The result of the `async_write_some` that is not handled yet: a number of bytes, or an error. -/
  result : Option (Option Nat) := none
  /-- What has come to the client. -/
  received : Bytes := []

structure Wire (σ : Type) where
  net : Net σ
  transfers : Nat → Transfer := fun _ => {}

inductive WireEvent
  /-- Anything but the end of a composed operation. -/
  | net (e : Event)
  /-- A `read_some` of the header returns: a number of bytes, or an error. -/
  | readSome (i : Nat) (result : Option Nat)
  /-- An `async_write_some` transfers bytes, or fails. -/
  | writeSome (i : Nat) (result : Option Nat)
  /-- The handler of an `async_write_some`. -/
  | writeOp (i : Nat)

/-- The error code and the number of bytes with which an operation returns. -/
def callback : Option Nat → Bool × Nat
  | some n => (false, n)
  | none => (true, 0)

namespace Wire

variable {σ : Type} (P : Platform) (exec : Bytes → σ → Outcome (Bytes × σ))

def setTransfer (w : Wire σ) (i : Nat) (t : Transfer) : Wire σ :=
  { w with transfers := fun j => if j = i then t else w.transfers j }

/-- A `read_some` of the header returns, and the loop goes on or `do_read` does. -/
def readSome (w : Wire σ) (i : Nat) (inside : Inside) (c : Conn) (s : Session) (ec : Bool) (n : Nat) :
    Wire σ :=
  let t := w.transfers i
  let header := t.header ++ c.inbox.take n
  let c := { c with inbox := c.inbox.drop n }
  match (readBufferSeq { size := size32, totalConsumed := t.header.length } ec n).2 with
  | none => { w with net := w.net.setConn i c }.setTransfer i { t with header }
  | some ec =>
    let s := { s with pending := s.pending.erase .header }
    let s := s.headerRead P (if ec then none else some header)
    let net := w.net.completed i inside (.ok ({ c with session := some s }, w.net.state, none))
    { w with net }.setTransfer i { t with header := if ec then header else [] }

/-- One step; none where the event cannot happen. An operation transfers at least one byte or fails, and
a read fails only on a connection that the client has closed, or where a signal interrupts it. -/
def next (w : Wire σ) : WireEvent → Option (Wire σ)
  | .net (.complete _ .header _) | .net (.complete _ (.write _) _) => none
  | .net e => (w.net.next P exec e).map fun net => { w with net }
  | .readSome i result => do
    let c ← w.net.conns i
    let s ← c.session
    let (j, inside) ← w.net.thread
    let (ec, n) := callback result
    let b : ConsumingBuffer := { size := size32, totalConsumed := (w.transfers i).header.length }
    if w.net.stopped || w.net.crashed || j ≠ i then none
    else if ec ∧ ¬ (c.closed || w.net.interrupted) then none
    else if ¬ ec ∧ ¬ (0 < n ∧ n ≤ b.prepare (transferAll false) ∧ n ≤ c.inbox.length) then none
    else some (w.readSome P i inside c s ec n)
  | .writeSome i result => do
    let c ← w.net.conns i
    let s ← c.session
    match s.pending with
    | [.write frame] =>
      let t := w.transfers i
      let (ec, n) := callback result
      let b : ConsumingBuffer := { size := frame.length, totalConsumed := t.consumed }
      if t.result.isSome then none
      else if ¬ ec ∧ ¬ (0 < n ∧ n ≤ b.prepare (transferAll false)) then none
      else some (w.setTransfer i { t with
        result := some result
        received := t.received ++ (frame.drop t.consumed).take n })
    | _ => none
  | .writeOp i => do
    let c ← w.net.conns i
    let s ← c.session
    let t := w.transfers i
    let (ec, n) := callback (← t.result)
    match s.pending with
    | [.write frame] =>
      if w.net.stopped || w.net.crashed || w.net.thread.isSome then none
      else
        match writeOp { size := frame.length, totalConsumed := t.consumed } ec n with
        | (b, none) => some (w.setTransfer i { t with consumed := b.totalConsumed, result := none })
        | (b, some ec) => do
          let net ← w.net.next P exec (.complete i (.write frame) (if ec then none else some b.totalConsumed))
          return { w with net }.setTransfer i { t with consumed := 0, result := none }
    | _ => none

end Wire

end RocksdbService
