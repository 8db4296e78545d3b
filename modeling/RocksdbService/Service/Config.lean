import RocksdbService.Service.Rocks

/-! # `struct config`

A database of the service (`server.cc`): its configuration, the lazily opened `DB` object and the
handles of its column families. The functions follow the members of `struct config`; what they
print is left out. A member function that changes the structure returns it. -/

namespace RocksdbService

open Json (Value)

/-- `struct config`. -/
structure Config where
  name : Bytes
  path : Bytes
  options : Options
  isOpen : Bool := false
  cfNames : List Bytes
  isCf : Bool
  handles : List Handle := []
  db : DbPtr := .indeterminate

/-- `Json::Value err; err["error"] = code;` -/
def errorReply (code : Int) : Value := .object [(ascii "error", .int code)]

/-- `err["error"] = 0; err["value"] = value;` -/
def valueReply (value : Bytes) : Outcome Value := do
  (errorReply 0).assign (ascii "value") (← Value.ofString value)

/-- `assert(condition)`. -/
def assertTrue (condition : Bool) : Outcome Unit :=
  if condition then .ok () else .error .assertion

namespace Config

/-- The constructor. `db` has no initialiser. -/
def create (name path : Bytes) (options : Options) (cfNames : List Bytes) : Config :=
  { name, path, options, cfNames, isCf := !cfNames.isEmpty }

/-- The loop of `open` that creates the families of a new database; `status` is the status of the
last call. -/
def createFamilies (db : DbPtr) : Status → List Bytes → RocksM Unit
  | _, [], r => .ok ((), r)
  | status, cfName :: cfNames, r => do
    let (status, r) ←
      (if cfName ≠ kDefaultColumnFamilyName then Rocks.createColumnFamily db cfName r
      else .ok (status, r))
    assertTrue status.isOk
    createFamilies db status cfNames r

/-- The first-time creation in `open`, up to `delete db`: with fresh options that only set
`create_if_missing`. -/
def createDb (c : Config) : RocksM Config := fun r => do
  let options := r.api.defaults.set .createIfMissing true
  let ((status, _, db), r) ← Rocks.dbOpen options c.path [kDefaultColumnFamilyName] r
  assertTrue status.isOk
  let ((), r) ← createFamilies db status c.cfNames r
  let ((), r) ← Rocks.deleteDb db r
  return ({ c with db }, r)

/-- The descriptors that `open` builds: the default family first. -/
def columnFamilies (c : Config) : List Bytes :=
  kDefaultColumnFamilyName :: c.cfNames.filter (· ≠ kDefaultColumnFamilyName)

/-- The branch of `open` for a database without configured families. -/
def openPlain (c : Config) : RocksM (Status × Config) := fun r => do
  let ((status, _, db), r) ← Rocks.dbOpen c.options c.path [kDefaultColumnFamilyName] r
  return ((status, { c with db }), r)

/-- The branch of `open` for a database with configured families. -/
def openFamilies (c : Config) : RocksM (Status × Config) := fun r => do
  let (c, r) ← (if !r.pathExists c.path then c.createDb r else .ok (c, r))
  let ((status, handles, db), r) ← Rocks.dbOpen r.api.defaults c.path c.columnFamilies r
  return ((status, { c with handles, db }), r)

/-- `config::open`. -/
def «open» (c : Config) : RocksM (Value × Config) := fun r => do
  if c.isOpen then return ((errorReply 0, c), r)
  else
    let ((status, c), r) ← (if !c.isCf then c.openPlain r else c.openFamilies r)
    if !status.isOk then return ((errorReply 4, c), r)
    else return ((errorReply 0, { c with isOpen := true }), r)

/-- `config::get_handle`. -/
def getHandle (c : Config) (str : Bytes) : Outcome (Option Handle) :=
  match c.cfNames.findIdx? (· = str) with
  | none => .ok none
  | some i =>
    match c.handles[i]? with
    | some handle => .ok (some handle)
    | none => .error .undefined

/-- The reply to the status of a write. -/
def writeReply (status : Status) : Value :=
  if !status.isOk then errorReply (-2) else errorReply 0

/-- The reply to the status and the value of a `Get`. -/
def readReply (status : Status) (value : Bytes) : Outcome Value :=
  if !status.isOk then .ok (errorReply (-2)) else valueReply value

/-- `config::get`. -/
def get (c : Config) (key : Bytes) : RocksM Value := fun r => do
  if c.db = .null then return (errorReply (-1), r)
  let ((status, value), r) ← Rocks.get c.db none key r
  return (← readReply status value, r)

/-- `config::put_cf`. -/
def putCf (c : Config) (cfName key value : Bytes) : RocksM Value := fun r => do
  if c.db = .null then return (errorReply (-1), r)
  match ← c.getHandle cfName with
  | some handle =>
    let (status, r) ← Rocks.put c.db (some handle) key value r
    return (writeReply status, r)
  | none => return (errorReply 7, r)

/-- `config::get_cf`. -/
def getCf (c : Config) (cfName key : Bytes) : RocksM Value := fun r => do
  if c.db = .null then return (errorReply (-1), r)
  match ← c.getHandle cfName with
  | some handle =>
    let ((status, value), r) ← Rocks.get c.db (some handle) key r
    return (← readReply status value, r)
  | none => return (errorReply 7, r)

/-- `config::put`. -/
def put (c : Config) (key value : Bytes) : RocksM Value := fun r => do
  if c.db = .null then return (errorReply (-1), r)
  let (status, r) ← Rocks.put c.db none key value r
  return (writeReply status, r)

/-- The loop of `config::write_batch` over the member names. -/
def fillBatch (items : Value) (names : List Bytes) : Outcome (List (Bytes × Bytes)) :=
  names.mapM fun key => do
    let value ← (← items.constIndex key).asString
    return (key, value)

/-- `config::write_batch`. -/
def writeBatch (c : Config) (items : Value) : RocksM Value := fun r => do
  if c.db = .null then return (errorReply (-1), r)
  let batch ← fillBatch items (← items.getMemberNames)
  let (status, r) ← Rocks.write c.db batch r
  return (writeReply status, r)

end Config

end RocksdbService
