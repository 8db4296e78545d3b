import RocksdbService.Service.Config
import RocksdbService.Json.Reader
import RocksdbService.Json.Writer

/-! # `server.cc`

Reading the config file, executing one request, and the shutdown handler. -/

namespace RocksdbService

open Json (Value)

/-! ## The config file -/

/-- The loop of `read_config` over the names of a `column_family` array. -/
def readColumnFamilies (cfNames : Value) : Outcome (List Bytes) := do
  let names ← (List.range cfNames.size).mapM fun i => do (← cfNames.at? i).asString
  return kDefaultColumnFamilyName :: names.filter (· ≠ kDefaultColumnFamilyName)

/-- The local variables of `read_config`. -/
structure ReadConfig where
  path : Bytes := []
  options : Options
  cf : List Bytes := []

/-- One turn of the loop of `read_config`. -/
def readConfigStep (api : OptionsApi) (s : ReadConfig) (entry : Bytes × Value) :
    Outcome ReadConfig :=
  let (key, v) := entry
  if key = ascii "column_family" then do
    return { s with cf := s.cf ++ (← readColumnFamilies v) }
  else if key = ascii "dbname" then do
    return { s with path := ← v.asString }
  else if key = ascii "options" then do
    let options ← optionsFromJson api v
    let options := api.increaseParallelism api.totalThreads options
    return { s with
      options := api.optimizeLevelStyleCompaction api.memtableMemoryBudget options }
  else return s

/-- `read_config`. -/
def readConfig (api : OptionsApi) (name : Bytes) (root : Value) : Outcome Config := do
  let s ← root.entries.foldlM (readConfigStep api) { options := api.defaults }
  return Config.create name s.path s.options s.cf

/-- The part of `main` that fills `configs`; none when the file does not parse. -/
def readConfigs (api : OptionsApi) (file : Bytes) : Outcome (Option (List Config)) := do
  match ← Json.parseFromStream file with
  | .error _ => return none
  | .ok root0 =>
    let (root, _) ← root0.resolveReference (ascii "dbs")
    let configs ← root.entries.mapM fun (key, v) => readConfig api key v
    return some configs

/-! ## Requests -/

/-- The state of the process: the global `configs` and RocksDB. -/
structure World where
  configs : List Config
  rocks : Rocks

/-- A call that reads and changes the state of the process. -/
abbrev ServerM (α : Type) := World → Outcome (α × World)

/-- `root[key].asString()`, and `root` after the access. -/
def stringField (root : Value) (key : String) : Outcome (Bytes × Value) := do
  let (v, root) ← root.resolveReference (ascii key)
  return (← v.asString, root)

/-- The chain of `exec_json` over `op`; `reply` is what `open` has returned. -/
def dispatch (item : Config) (root reply : Value) (op : Bytes) : RocksM Value := fun r => do
  if op = ascii "put_cf" then
    let (column, root) ← stringField root "column"
    let (key, root) ← stringField root "key"
    let (value, _) ← stringField root "value"
    item.putCf column key value r
  else if op = ascii "put" then
    let (key, root) ← stringField root "key"
    let (value, _) ← stringField root "value"
    item.put key value r
  else if op = ascii "write_batch" then
    let (items, _) ← root.resolveReference (ascii "items")
    item.writeBatch items r
  else if op = ascii "get" then
    let (key, _) ← stringField root "key"
    item.get key r
  else if op = ascii "get_cf" then
    let (column, root) ← stringField root "column"
    let (key, _) ← stringField root "key"
    item.getCf column key r
  else
    return (← reply.assign (ascii "error") (.int 7), r)

/-- The part of `exec_json` for a root that the reader accepts. -/
def execRoot (root reply : Value) : ServerM Value := fun w => do
  let (dbName, root) ← stringField root "dbname"
  if dbName = [] then return (← reply.assign (ascii "error") (.int 6), w)
  match w.configs.findIdx? (·.name = dbName) with
  | none => return (← reply.assign (ascii "error") (.int 3), w)
  | some i =>
    match w.configs[i]? with
    | none => throw .undefined
    | some item =>
      let ((reply, item), rocks) ← item.open w.rocks
      let configs := w.configs.set i item
      if !item.isOpen then return (reply, { configs, rocks })
      let (op, root) ← stringField root "op"
      let (reply, rocks) ← dispatch item root reply op rocks
      return (reply, { configs, rocks })

/-- `exec_json` up to the reply that it renders. -/
def execReply (inp : Bytes) : ServerM Value := fun w => do
  let reply := errorReply 0
  match ← Json.parseFromStream inp with
  | .error _ => return (← reply.assign (ascii "error") (.int 1), w)
  | .ok root => execRoot root reply w

/-- `exec_json`. -/
def execJson (inp : Bytes) : ServerM Bytes := fun w => do
  let (reply, w) ← execReply inp w
  return (Json.FastWriter.write reply, w)

/-! ## Shutdown -/

/-- The loop of the signal handler. -/
def shutdownConfigs : List Config → RocksM (List Config)
  | [], r => .ok ([], r)
  | item :: configs, r => do
    let ((), r) ← Rocks.deleteDb item.db r
    let (configs, r) ← shutdownConfigs configs r
    return ({ item with isOpen := false } :: configs, r)

/-- The signal handler of `main`, up to `io_context.stop()`. -/
def shutdown : ServerM Unit := fun w => do
  let (configs, rocks) ← shutdownConfigs w.configs w.rocks
  return ((), { configs, rocks })

/-! ## The process -/

/-- What makes the process run a handler: a request is complete, or a SIGINT or SIGTERM arrives. -/
inductive ProcessEvent
  | request (inp : Bytes)
  | signal

/-- The process between two handlers; `stopped` once `io_context.stop()` has been called. -/
structure Process where
  world : World
  stopped : Bool := false

/-- One handler. After `io_context.stop()` none runs any more. -/
def Process.step (event : ProcessEvent) (p : Process) : Outcome (Option Value × Process) :=
  if p.stopped then .ok (none, p)
  else
    match event with
    | .request inp => do
      let (reply, world) ← execReply inp p.world
      return (some reply, { p with world })
    | .signal => do
      let ((), world) ← shutdown p.world
      return (none, { world, stopped := true })

end RocksdbService
