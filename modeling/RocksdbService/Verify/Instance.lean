import RocksdbService.Json.Compare
import RocksdbService.Verify.Exec

/-! # An instance of RocksDB's options

The default options of RocksDB and the tuning calls as its documentation describes them, as far as
the program's fields go. The theorems of this development hold for any `OptionsApi`; this one is for
running the model. -/

namespace RocksdbService

open Json (Value JString)

/-- `Options()`. -/
def defaultOptions : Options
  | .infoLogLevel => .info
  | .accessHintOnCompactionStart => .normal
  | .compression => .snappy
  | .compactionStyle => .level
  | .compressionPerLevel => []
  | .maxOpenFiles => -1
  | .numLevels => 7
  | .level0FileNumCompactionTrigger => 4
  | .level0SlowdownWritesTrigger => 20
  | .level0StopWritesTrigger => 36
  | .targetFileSizeMultiplier => 1
  | .maxWriteBufferNumber => 2
  | .minWriteBufferNumberToMerge => 1
  | .maxWriteBufferNumberToMaintain => 0
  | .maxBackgroundCompactions => -1
  | .maxBackgroundFlushes => -1
  | .tableCacheNumshardbits => 6
  | .maxBackgroundJobs => 2
  | .useFsync => false
  | .disableAutoCompactions => false
  | .reportBgIoStats => false
  | .createIfMissing => false
  | .createMissingColumnFamilies => false
  | .errorIfExists => false
  | .paranoidChecks => true
  | .allowMmapReads => false
  | .allowMmapWrites => false
  | .isFdCloseOnExec => true
  | .adviseRandomOnOpen => true
  | .useAdaptiveMutex => false
  | .inplaceUpdateSupport => false
  | .maxTotalWalSize => 0
  | .targetFileSizeBase => 64 * 1024 * 1024
  | .maxBytesForLevelBase => 256 * 1024 * 1024
  | .walTtlSeconds => 0
  | .walSizeLimitMB => 0
  | .bytesPerSync => 0
  | .maxSequentialSkipInIterations => 8
  | .deleteObsoleteFilesPeriodMicros => 6 * 60 * 60 * 1000000
  | .writeBufferSize => 64 * 1024 * 1024

/-- `OptimizeLevelStyleCompaction` for a memtable budget. -/
def optimizeLevelStyle (budget : Nat) (o : Options) : Options :=
  let o := (o.set .writeBufferSize (budget / 4)).set .minWriteBufferNumberToMerge 2
  let o := (o.set .maxWriteBufferNumber 6).set .level0FileNumCompactionTrigger 2
  let o := (o.set .targetFileSizeBase (budget / 8)).set .maxBytesForLevelBase budget
  let o := o.set .compactionStyle .level
  o.set .compressionPerLevel
    ((List.range (o .numLevels).toNat).map fun i => if i < 2 then .noCompression else .snappy)

/-- `OptimizeUniversalStyleCompaction` for a memtable budget. -/
def optimizeUniversalStyle (budget : Nat) (o : Options) : Options :=
  let o := (o.set .writeBufferSize (budget / 4)).set .minWriteBufferNumberToMerge 2
  (o.set .maxWriteBufferNumber 6).set .compactionStyle .universal

/-- The calls of RocksDB on its own defaults. -/
def rocksdbApi : OptionsApi where
  defaults := defaultOptions
  increaseParallelism n o := o.set .maxBackgroundJobs n
  optimizeForPointLookup _ o := o
  optimizeLevelStyleCompaction := optimizeLevelStyle
  optimizeUniversalStyleCompaction := optimizeUniversalStyle
  totalThreads := 16
  memtableMemoryBudget := 512 * 1024 * 1024

/-- The string value of a short ASCII literal. -/
def textValue (s : String) : Value :=
  if h : (ascii s).length ≤ Json.maxStringLength then .string ⟨ascii s, h⟩ else .null

/-- A RocksDB that serves every call and has nothing on disk. -/
def emptyRocks : Rocks where
  api := rocksdbApi
  answers := fun _ => .serve
  disk := fun _ => none
  contents := fun _ _ _ => none

/-- A RocksDB that holds `v` under `k` of the default family at `p`. -/
def holding (v : Bytes) : Rocks :=
  { emptyRocks with
    disk := fun _ => some [kDefaultColumnFamilyName]
    contents := fun path family key =>
      if path = ascii "p" ∧ family = kDefaultColumnFamilyName ∧ key = ascii "k" then some v
      else none }

/-- A config file with one database without configured families. -/
def plainFile : Bytes := ascii "\x7b\"dbs\":\x7b\"a\":\x7b\"dbname\":\"p\"\x7d\x7d\x7d"

def plainConfig : Config := Config.create (ascii "a") (ascii "p") defaultOptions []

theorem readConfigs_plainFile : readConfigs rocksdbApi plainFile = .ok (some [plainConfig]) := by
  have hparse : Json.parseFromStream plainFile = .ok (.ok (.object [(ascii "dbs",
      .object [(ascii "a", .object [(ascii "dbname", textValue "p")])])])) :=
    Json.parseFromStream_eq (by decide +kernel)
  unfold readConfigs
  rw [hparse]
  rfl

/-- The payload of a request to the database `a`. -/
def payload (members : String) : Bytes := ascii ("\x7b\"dbname\":\"a\"," ++ members ++ "\x7d")

def putPayload : Bytes := payload "\"op\":\"put\",\"key\":\"k\",\"value\":\"v\""

def getPayload : Bytes := payload "\"op\":\"get\",\"key\":\"k\""

theorem parseFromStream_putPayload : Json.parseFromStream putPayload =
    .ok (.ok (.object [(ascii "dbname", textValue "a"), (ascii "key", textValue "k"),
      (ascii "op", textValue "put"), (ascii "value", textValue "v")])) :=
  Json.parseFromStream_eq (by decide +kernel)

theorem parseFromStream_getPayload : Json.parseFromStream getPayload =
    .ok (.ok (.object [(ascii "dbname", textValue "a"), (ascii "key", textValue "k"),
      (ascii "op", textValue "get")])) :=
  Json.parseFromStream_eq (by decide +kernel)

theorem requestOf_putPayload : requestOf putPayload =
    .ok (.named (ascii "a") (.ok (.put (ascii "k") ⟨ascii "v", by decide⟩))) := by
  simp only [requestOf, parseFromStream_putPayload]
  rfl

theorem requestOf_getPayload :
    requestOf getPayload = .ok (.named (ascii "a") (.ok (.get (ascii "k")))) := by
  simp only [requestOf, parseFromStream_getPayload]
  rfl

end RocksdbService
