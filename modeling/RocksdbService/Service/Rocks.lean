import RocksdbService.Service.Options
import RocksdbService.Theory.Families

/-! # RocksDB as the service sees it

RocksDB is not part of the repository. What the service relies on is: a call returns a status; a
successful `DB::Open` stores a pointer to a fresh live `DB` object and one handle per descriptor in
descriptor order, a failed one stores null; `Get`, `Put` and `Write` act on the column family of
their handle, the default one without a handle, all or nothing. Everything else is a parameter:
whether the `i`-th call is served (`answers`), and the option functions (`api`).

A call through a pointer that no live object stands behind is undefined. -/

namespace RocksdbService

/-- Whether RocksDB serves a call. A refused `DB::Open` may have created the directory. -/
inductive Answer
  | serve
  | refuse (leavesPath : Bool)
  deriving DecidableEq, Repr

/-- `ROCKSDB_NAMESPACE::Status`, as far as `ok()` tells. -/
inductive Status
  | ok | notFound | failed
  deriving DecidableEq, Repr

/-- `Status::ok`. -/
def Status.isOk : Status → Bool
  | ok => true
  | notFound | failed => false

/-- A `DB*`. A member without initialiser holds an indeterminate value. -/
inductive DbPtr
  | indeterminate
  | null
  | object (id : Nat)
  deriving DecidableEq, Repr

/-- A `ColumnFamilyHandle*` obtained from the `DB` object `db`. -/
structure Handle where
  db : Nat
  family : Bytes
  deriving DecidableEq, Repr

/-- A live `DB` object: where it is and the options it was opened with. -/
structure OpenDb where
  path : Bytes
  options : Options

/-- `kDefaultColumnFamilyName`. -/
def kDefaultColumnFamilyName : Bytes := ascii "default"

/-- The keys and values below a path and a column family. -/
abbrev Contents := Families Bytes Bytes Bytes Bytes

/-- The process-wide state of RocksDB. -/
structure Rocks where
  api : OptionsApi
  /-- The answer to the `i`-th call. -/
  answers : Nat → Answer
  /-- How many calls have been answered. -/
  calls : Nat := 0
  /-- The column families of the database at a path, none where the path does not exist. -/
  disk : Bytes → Option (List Bytes)
  contents : Contents
  /-- The live `DB` objects. -/
  live : Nat → Option OpenDb := fun _ => none
  /-- The next `DB` object. -/
  next : Nat := 0

/-- A computation that calls RocksDB. -/
abbrev RocksM (α : Type) := Rocks → Outcome (α × Rocks)

namespace Rocks

/-- The answer to the next call, which is then used up. -/
def answer (r : Rocks) : Answer × Rocks := (r.answers r.calls, { r with calls := r.calls + 1 })

/-- The `DB` object behind a pointer. -/
def deref (r : Rocks) : DbPtr → Outcome (Nat × OpenDb)
  | .object id =>
    match r.live id with
    | some db => .ok (id, db)
    | none => .error .undefined
  | .null | .indeterminate => .error .undefined

/-- Families `fs` exist at `path` from now on. -/
def addFamilies (r : Rocks) (path : Bytes) (fs : List Bytes) : Rocks :=
  { r with
    disk := fun p =>
      if p = path then
        let old := (r.disk path).getD []
        some (old ++ fs.filter (· ∉ old))
      else r.disk p }

/-- A fresh live object. -/
def newDb (r : Rocks) (db : OpenDb) : Rocks :=
  { r with
    live := fun id => if id = r.next then some db else r.live id
    next := r.next + 1 }

/-- `std::filesystem::exists`. Paths on which it throws are left out. -/
def pathExists (r : Rocks) (path : Bytes) : Bool := (r.disk path).isSome

/-- `DB::Open(DBOptions, path, column_families, &handles, &db)`; `DB::Open(options, path, &db)` is
the same call with the default family as the only descriptor. -/
def dbOpen (options : Options) (path : Bytes) (families : List Bytes) :
    RocksM (Status × List Handle × DbPtr) := fun r =>
  match r.answer with
  | (.serve, r) =>
    .ok ((.ok, families.map (Handle.mk r.next), .object r.next),
      (r.addFamilies path families).newDb ⟨path, options⟩)
  | (.refuse leavesPath, r) =>
    .ok ((.failed, [], .null), if leavesPath then r.addFamilies path [] else r)

/-- `db->CreateColumnFamily`. -/
def createColumnFamily (db : DbPtr) (name : Bytes) : RocksM Status := fun r => do
  let (_, obj) ← r.deref db
  match r.answer with
  | (.serve, r) => return (.ok, r.addFamilies obj.path [name])
  | (.refuse _, r) => return (.failed, r)

/-- `delete db`. -/
def deleteDb (db : DbPtr) : RocksM Unit := fun r =>
  match db with
  | .null => .ok ((), r)
  | db => do
    let (id, _) ← r.deref db
    return ((), { r with live := fun j => if j = id then none else r.live j })

/-- The column family that a call through `db` with an optional handle addresses. -/
def family (r : Rocks) (db : DbPtr) : Option Handle → Outcome (Bytes × Bytes)
  | none => do
    let (_, obj) ← r.deref db
    return (obj.path, kDefaultColumnFamilyName)
  | some h => do
    let (id, obj) ← r.deref db
    if h.db = id then return (obj.path, h.family) else throw .undefined

/-- `db->Get`: the status and what `value` holds afterwards. -/
def get (db : DbPtr) (handle : Option Handle) (key : Bytes) : RocksM (Status × Bytes) := fun r => do
  let (path, fam) ← r.family db handle
  match r.answer with
  | (.serve, r) =>
    match r.contents path fam key with
    | some value => return ((.ok, value), r)
    | none => return ((.notFound, []), r)
  | (.refuse _, r) => return ((.failed, []), r)

/-- `db->Put`. -/
def put (db : DbPtr) (handle : Option Handle) (key value : Bytes) : RocksM Status := fun r => do
  let (path, fam) ← r.family db handle
  match r.answer with
  | (.serve, r) => return (.ok, { r with contents := r.contents.put path fam key value })
  | (.refuse _, r) => return (.failed, r)

/-- `db->Write` of a batch of puts without handles. -/
def write (db : DbPtr) (batch : List (Bytes × Bytes)) : RocksM Status := fun r => do
  let (path, fam) ← r.family db none
  match r.answer with
  | (.serve, r) =>
    return (.ok, { r with contents := r.contents.putAll path fam batch })
  | (.refuse _, r) => return (.failed, r)

end Rocks

end RocksdbService
