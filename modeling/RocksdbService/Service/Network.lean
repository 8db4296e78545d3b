import RocksdbService.Service.Session

/-! # The server and its clients

The one thread of `io_context::run`, the acceptor (`server::do_accept`), the sessions, and the
bytes that each client has delivered. The thread runs one completion handler at a time; a handler
that reaches the blocking `asio::read` of `do_read` keeps the thread there until the four bytes of
the header have come, the client has closed, or a signal has ended the read. The steps of the clients,
of the transport and of the signal are the events that the server does not control.

`sent` and `calls` record what a client has delivered and what was executed for it. -/

namespace RocksdbService

/-- A connection. -/
structure Conn where
  /-- None while the connection waits to be accepted. -/
  session : Option Session := none
  /-- The bytes that have arrived and are not read. -/
  inbox : Bytes := []
  /-- The client has closed the connection. -/
  closed : Bool := false
  sent : Bytes := []
  calls : List Call := []

namespace Conn

variable {σ : Type} (P : Platform) (exec : Bytes → σ → Outcome (Bytes × σ))

/-- `std::make_shared<session>(std::move(socket_))->start()`. -/
def start (c : Conn) : Conn := { c with session := some ({} : Session).doRead }

/-- The operation `op` of the session completes: with a number of bytes transferred, or with an
error. None where the transport cannot do this: a header needs four bytes, and a read transfers at
least one byte unless its buffer is empty. When a blocking read fails is up to the server (`Net.next`). -/
def complete (c : Conn) (st : σ) (op : Pending) (result : Option Nat) :
    Option (Outcome (Conn × σ × Option Call)) :=
  match c.session with
  | none => none
  | some s =>
    if op ∉ s.pending then none
    else
      let s := { s with pending := s.pending.erase op }
      match op, result with
      | .header, some _ =>
        if size32 ≤ c.inbox.length then
          some (.ok ({ c with
            session := some (s.headerRead P (some (c.inbox.take size32)))
            inbox := c.inbox.drop size32 }, st, none))
        else none
      | .header, none => some (.ok ({ c with session := some (s.headerRead P none) }, st, none))
      | .readSome buffer size handler, some n =>
        if n ≤ size ∧ n ≤ c.inbox.length ∧ (n = 0 → size = 0) then
          some do
            let heap ← s.heap.write buffer (c.inbox.take n)
            let h ← Session.readHandler P exec { s with heap } st handler (some n)
            return ({ c with
              session := some h.session
              inbox := c.inbox.drop n
              calls := c.calls ++ h.call.toList }, h.state, h.call)
        else none
      | .readSome _ _ handler, none =>
        some do
          let h ← Session.readHandler P exec s st handler none
          return ({ c with session := some h.session }, h.state, h.call)
      | .write _, result =>
        some do
          let s ← s.writeHandler result.isSome
          return ({ c with session := some s }, st, none)

/-- The session is inside the blocking read of a header. -/
def inHeader (c : Conn) : Bool :=
  match c.session with
  | some s => .header ∈ s.pending
  | none => false

end Conn

/-- The handler that the thread is inside while a blocking read keeps it there. -/
inductive Inside
  /-- The handler of `async_accept`, which calls `do_accept` again when it goes on. -/
  | acceptHandler
  | writeHandler
  deriving DecidableEq

/-- The state of the server with its clients. -/
structure Net (σ : Type) where
  state : σ
  conns : Nat → Option Conn := fun _ => none
  /-- The session whose `asio::read` the thread is inside, and from which handler. -/
  thread : Option (Nat × Inside) := none
  /-- A signal has been caught since the thread has come to its read. -/
  interrupted : Bool := false
  /-- `acceptor_.async_accept` is pending. -/
  accepting : Bool := true
  /-- A SIGINT or SIGTERM has arrived and its handler has not run. -/
  signalled : Bool := false
  /-- `io_context.stop()` has been called. -/
  stopped : Bool := false
  /-- A handler ended in a fault. -/
  crashed : Bool := false
  /-- The calls of `exec_json`, in order, with the client each was made for. -/
  order : List (Nat × Call) := []

inductive Event
  | connect (i : Nat)
  | deliver (i : Nat) (bs : Bytes)
  | close (i : Nat)
  | signal
  | accept (i : Nat)
  | complete (i : Nat) (op : Pending) (result : Option Nat)
  | shutdown
  deriving DecidableEq

namespace Net

variable {σ : Type} (P : Platform) (exec : Bytes → σ → Outcome (Bytes × σ))

/-- The connection of client `i` is replaced. -/
def setConn (n : Net σ) (i : Nat) (c : Conn) : Net σ :=
  { n with conns := fun j => if j = i then some c else n.conns j }

/-- Where the thread is when a handler for client `i` has come to its end or to a blocking read;
when a blocking read inside the accept handler returns, `do_accept` follows. -/
def settle (n : Net σ) (i : Nat) (c : Conn) (inside : Inside) : Net σ :=
  if c.inHeader then { n with thread := some (i, inside), interrupted := false }
  else { n with thread := none, accepting := n.accepting || inside = .acceptHandler }

/-- An operation of client `i` completes and its handler runs. -/
def completed (n : Net σ) (i : Nat) (inside : Inside) :
    Outcome (Conn × σ × Option Call) → Net σ
  | .error _ => { n with crashed := true }
  | .ok (c, st, call) =>
    { (n.setConn i c).settle i c inside with
      state := st
      order := n.order ++ call.toList.map (i, ·) }

/-- One step; none where the event cannot happen. A blocking read fails on a closed connection, or where
a signal interrupts the system call: the handlers of `signal_set` are installed without `SA_RESTART`, and
`sync_recv1` returns the error. -/
def next (n : Net σ) : Event → Option (Net σ)
  | .connect i =>
    match n.conns i with
    | none => some (n.setConn i {})
    | some _ => none
  | .deliver i bs => do
    let c ← n.conns i
    if c.closed then none
    else some (n.setConn i { c with inbox := c.inbox ++ bs, sent := c.sent ++ bs })
  | .close i => do
    let c ← n.conns i
    some (n.setConn i { c with closed := true })
  | .signal => some { n with signalled := true, interrupted := true }
  | .accept i => do
    let c ← n.conns i
    if n.stopped || n.crashed || n.thread.isSome || !n.accepting || c.session.isSome then none
    else
      let c := c.start
      some (({ n with accepting := false }.setConn i c).settle i c .acceptHandler)
  | .complete i op result => do
    let c ← n.conns i
    if n.stopped || n.crashed then none
    else
      match n.thread with
      | some (j, inside) =>
        if j = i ∧ op = .header ∧ (result.isSome || c.closed || n.interrupted) then
          some (n.completed i inside (← c.complete P exec n.state op result))
        else none
      | none =>
        if op = .header then none
        else some (n.completed i .writeHandler (← c.complete P exec n.state op result))
  | .shutdown =>
    if n.stopped || n.crashed || n.thread.isSome || !n.signalled then none
    else some { n with stopped := true, signalled := false }

end Net

end RocksdbService
