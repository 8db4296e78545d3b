import RocksdbService.Service.Server
import RocksdbService.Theory.Leaving

/-! # The state that an exception leaves

`exec_json` once more, with the state of the process also where an exception leaves it. The calls of
RocksDB and `open` throw nothing, what throws is the access to JSON values in between. -/

namespace RocksdbService

open Json (Value)
open Leaving (lift call zoom)

namespace Config

/-- `config::get`. -/
def getLeaving (c : Config) (key : Bytes) : Leaving Rocks Value := do
  if c.db = .null then return errorReply (-1)
  let (status, value) ← call (Rocks.get c.db none key)
  lift (readReply status value)

/-- `config::put_cf`. -/
def putCfLeaving (c : Config) (cfName key value : Bytes) : Leaving Rocks Value := do
  if c.db = .null then return errorReply (-1)
  match ← lift (c.getHandle cfName) with
  | some handle => return writeReply (← call (Rocks.put c.db (some handle) key value))
  | none => return errorReply 7

/-- `config::get_cf`. -/
def getCfLeaving (c : Config) (cfName key : Bytes) : Leaving Rocks Value := do
  if c.db = .null then return errorReply (-1)
  match ← lift (c.getHandle cfName) with
  | some handle =>
    let (status, value) ← call (Rocks.get c.db (some handle) key)
    lift (readReply status value)
  | none => return errorReply 7

/-- `config::put`. -/
def putLeaving (c : Config) (key value : Bytes) : Leaving Rocks Value := do
  if c.db = .null then return errorReply (-1)
  return writeReply (← call (Rocks.put c.db none key value))

/-- `config::write_batch`. -/
def writeBatchLeaving (c : Config) (items : Value) : Leaving Rocks Value := do
  if c.db = .null then return errorReply (-1)
  let batch ← lift (do fillBatch items (← items.getMemberNames))
  return writeReply (← call (Rocks.write c.db batch))

end Config

/-- The chain of `exec_json` over `op`. -/
def dispatchLeaving (item : Config) (root reply : Value) (op : Bytes) : Leaving Rocks Value := do
  if op = ascii "put_cf" then
    let (column, root) ← lift (stringField root "column")
    let (key, root) ← lift (stringField root "key")
    let (value, _) ← lift (stringField root "value")
    item.putCfLeaving column key value
  else if op = ascii "put" then
    let (key, root) ← lift (stringField root "key")
    let (value, _) ← lift (stringField root "value")
    item.putLeaving key value
  else if op = ascii "write_batch" then
    let (items, _) ← lift (root.resolveReference (ascii "items"))
    item.writeBatchLeaving items
  else if op = ascii "get" then
    let (key, _) ← lift (stringField root "key")
    item.getLeaving key
  else if op = ascii "get_cf" then
    let (column, root) ← lift (stringField root "column")
    let (key, _) ← lift (stringField root "key")
    item.getCfLeaving column key
  else
    lift (reply.assign (ascii "error") (.int 7))

/-- A call on the RocksDB of the process. -/
def World.onRocks {α : Type} (x : Leaving Rocks α) : Leaving World α :=
  x.zoom World.rocks fun rocks w => { w with rocks }

/-- The part of `exec_json` for a root that the reader accepts. -/
def execRootLeaving (root reply : Value) : Leaving World Value := do
  let (dbName, root) ← lift (stringField root "dbname")
  if dbName = [] then lift (reply.assign (ascii "error") (.int 6))
  else
    let w ← get
    match w.configs.findIdx? (·.name = dbName) with
    | none => lift (reply.assign (ascii "error") (.int 3))
    | some i =>
      match w.configs[i]? with
      | none => throw .undefined
      | some item =>
        let (reply, item) ← World.onRocks (call item.open)
        modify fun w => { w with configs := w.configs.set i item }
        if !item.isOpen then return reply
        let (op, root) ← lift (stringField root "op")
        World.onRocks (dispatchLeaving item root reply op)

/-- `exec_json` up to the reply that it renders. -/
def execReplyLeaving (inp : Bytes) : Leaving World Value := do
  let reply := errorReply 0
  match ← lift (Json.parseFromStream inp) with
  | .error _ => lift (reply.assign (ascii "error") (.int 1))
  | .ok root => execRootLeaving root reply

end RocksdbService
