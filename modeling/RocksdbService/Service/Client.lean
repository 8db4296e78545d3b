import RocksdbService.Json.Reader
import RocksdbService.Json.StyledWriter
import RocksdbService.Service.Session

/-! # The client

`query` of `catchtest.cc`, before and after the `asio::write` of the request. -/

namespace RocksdbService.Client

/-- `max_length`. -/
def maxLength : Nat := 1024

/-- What `query` hands to `asio::write`. -/
def request (endian : Endian) (root : Json.Value) : Outcome Bytes := do
  let request ← Json.writeString {} root
  let (outData, heap) := ({} : Heap).alloc maxLength
  let length := request.length % 2 ^ 32
  let heap ← heap.write (outData.add size32) (strncpy request length)
  let heap ← heap.write outData (endian.encode32 length)
  heap.read outData (min maxLength ((length + size32) % 2 ^ 32))

/-- `asio::read` of `size` bytes when `received` has come; none while it waits. -/
def read (received : Bytes) (closed : Bool) (size : Nat) : Option (Outcome (Bytes × Bytes)) :=
  if size ≤ received.length then some (.ok (received.take size, received.drop size))
  else if closed then some (.error (.exception "read: End of file")) else none

/-- What `query` makes of what comes back, none while it waits: the root if `retval` is true, and the
messages of the reader if it is false. -/
def reply (endian : Endian) (received : Bytes) (closed : Bool) :
    Option (Outcome (Except Bytes Json.Value)) :=
  match read received closed size32 with
  | none => none
  | some (.error f) => some (.error f)
  | some (.ok (header, rest)) =>
    match read rest closed (min maxLength (endian.decode32 header)) with
    | none => none
    | some (.error f) => some (.error f)
    | some (.ok (text, _)) => some (Json.parseFromStream text)

end RocksdbService.Client
