import Mathlib.Logic.Function.Basic
import RocksdbService.Json.Value

/-! # `options_from_json`

RocksDB's `Options`, as far as `options_json.cc` and `read_config` touch them, and the translation
of an `options` object of the config file into them. RocksDB itself is not part of the repository:
the default options and the four bulk tuning calls are parameters (`OptionsApi`). -/

namespace RocksdbService

inductive InfoLogLevel
  | debug | info | warn | error | fatal | header
  deriving DecidableEq, Repr

inductive AccessHint
  | none | normal | sequential | willNeed
  deriving DecidableEq, Repr

inductive Compression
  | noCompression | snappy | zlib | bzip2 | lz4 | lz4hc | xpress | zstd | zstdNotFinal
  | disableCompressionOption
  deriving DecidableEq, Repr

inductive CompactionStyle
  | level | universal | fifo | none
  deriving DecidableEq, Repr

namespace Options

/-- The fields of `Options` that the program sets, directly or through a tuning call. -/
inductive Field
  | infoLogLevel | maxOpenFiles | numLevels | level0FileNumCompactionTrigger
  | level0SlowdownWritesTrigger | level0StopWritesTrigger | targetFileSizeMultiplier
  | maxWriteBufferNumber | minWriteBufferNumberToMerge | maxWriteBufferNumberToMaintain
  | maxBackgroundCompactions | maxBackgroundFlushes | tableCacheNumshardbits | useFsync
  | accessHintOnCompactionStart | disableAutoCompactions | reportBgIoStats | compression
  | createIfMissing | createMissingColumnFamilies | errorIfExists | paranoidChecks
  | allowMmapReads | allowMmapWrites | isFdCloseOnExec | adviseRandomOnOpen | useAdaptiveMutex
  | inplaceUpdateSupport
  | maxTotalWalSize | targetFileSizeBase | maxBytesForLevelBase | walTtlSeconds | walSizeLimitMB
  | bytesPerSync | maxSequentialSkipInIterations | deleteObsoleteFilesPeriodMicros
  -- set by the tuning calls only
  | writeBufferSize | compactionStyle | compressionPerLevel | maxBackgroundJobs
  deriving DecidableEq, Repr

/-- The type of a field in RocksDB. -/
abbrev Field.Type : Field → Type
  | infoLogLevel => InfoLogLevel
  | accessHintOnCompactionStart => AccessHint
  | compression => Compression
  | compactionStyle => CompactionStyle
  | compressionPerLevel => List Compression
  | maxOpenFiles | numLevels | level0FileNumCompactionTrigger | level0SlowdownWritesTrigger
  | level0StopWritesTrigger | targetFileSizeMultiplier | maxWriteBufferNumber
  | minWriteBufferNumberToMerge | maxWriteBufferNumberToMaintain | maxBackgroundCompactions
  | maxBackgroundFlushes | tableCacheNumshardbits | maxBackgroundJobs => Int
  | useFsync | disableAutoCompactions | reportBgIoStats
  | createIfMissing | createMissingColumnFamilies | errorIfExists | paranoidChecks
  | allowMmapReads | allowMmapWrites | isFdCloseOnExec | adviseRandomOnOpen | useAdaptiveMutex
  | inplaceUpdateSupport => Bool
  | maxTotalWalSize | targetFileSizeBase | maxBytesForLevelBase | walTtlSeconds | walSizeLimitMB
  | bytesPerSync | maxSequentialSkipInIterations | deleteObsoleteFilesPeriodMicros
  | writeBufferSize => Nat

end Options

/-- `ROCKSDB_NAMESPACE::Options`: a value for every field. -/
def Options := (f : Options.Field) → f.Type

namespace Options

/-- `options.f = x`. -/
def set (o : Options) (f : Field) (x : f.Type) : Options := Function.update o f x

@[simp] theorem set_self (o : Options) (f : Field) (x : f.Type) : o.set f x f = x :=
  Function.update_self ..

theorem set_of_ne (o : Options) {f g : Field} (x : f.Type) (h : g ≠ f) : o.set f x g = o g :=
  Function.update_of_ne h ..

end Options

/-- What the program uses of RocksDB's `options.h`. -/
structure OptionsApi where
  /-- `Options()`. -/
  defaults : Options
  increaseParallelism : Int → Options → Options
  optimizeForPointLookup : Nat → Options → Options
  optimizeLevelStyleCompaction : Nat → Options → Options
  optimizeUniversalStyleCompaction : Nat → Options → Options
  /-- The default argument of `IncreaseParallelism`. -/
  totalThreads : Int
  /-- The default argument of `OptimizeLevelStyleCompaction`. -/
  memtableMemoryBudget : Nat

namespace OptionsFromJson

open Json (Value)
open Options (Field)

/-- One branch of the chain in `options_from_json`. -/
inductive Branch
  /-- `options.f = convert(*itr)`. -/
  | assign (f : Field) (convert : Value → Outcome f.Type)
  /-- A tuning call with the converted value as its argument. -/
  | tune {α : Type} (convert : Value → Outcome α) (call : OptionsApi → α → Options → Options)
  /-- The value is converted and dropped. -/
  | check (convert : Value → Outcome Int)

/-- The `switch` of `info_log_level`. -/
def infoLogLevelOfInt : Int → InfoLogLevel
  | 1 => .info
  | 2 => .warn
  | 3 => .error
  | 4 => .fatal
  | 5 => .header
  | _ => .debug

/-- The `switch` of `access_hint_on_compaction_start`. -/
def accessHintOfInt : Int → AccessHint
  | 0 => .none
  | 2 => .sequential
  | 3 => .willNeed
  | _ => .normal

/-- The `switch` of `compression`. -/
def compressionOfInt : Int → Compression
  | 1 => .snappy
  | 2 => .zlib
  | 3 => .bzip2
  | 4 => .lz4
  | 5 => .lz4hc
  | 6 => .xpress
  | 7 => .zstd
  | 8 => .zstdNotFinal
  | 9 => .disableCompressionOption
  | _ => .noCompression

/-- `asInt` assigned to a `bool` field. -/
def asIntToBool (v : Value) : Outcome Bool := (fun i => decide (i ≠ 0)) <$> v.asInt

/-- The chain of `options_from_json`, in the order of the source. -/
def branches : List (String × Branch) :=
  [ -- int options
    ("increase_parallelism", .tune Value.asInt OptionsApi.increaseParallelism),
    ("info_log_level", .assign .infoLogLevel fun v => infoLogLevelOfInt <$> v.asInt),
    ("max_open_files", .assign .maxOpenFiles Value.asInt),
    ("num_levels", .assign .numLevels Value.asInt),
    ("level0_file_num_compaction_trigger",
      .assign .level0FileNumCompactionTrigger Value.asInt),
    ("level0_slowdown_writes_trigger", .assign .level0SlowdownWritesTrigger Value.asInt),
    ("level0_stop_writes_trigger", .assign .level0StopWritesTrigger Value.asInt),
    ("target_file_size_multiplier", .assign .targetFileSizeMultiplier Value.asInt),
    ("max_write_buffer_number", .assign .maxWriteBufferNumber Value.asInt),
    ("min_write_buffer_number_to_merge", .assign .minWriteBufferNumberToMerge Value.asInt),
    ("max_write_buffer_number_to_maintain",
      .assign .maxWriteBufferNumberToMaintain Value.asInt),
    ("max_background_compactions", .assign .maxBackgroundCompactions Value.asInt),
    ("max_background_flushes", .assign .maxBackgroundFlushes Value.asInt),
    ("table_cache_numshardbits", .assign .tableCacheNumshardbits Value.asInt),
    ("use_fsync", .assign .useFsync asIntToBool),
    ("access_hint_on_compaction_start",
      .assign .accessHintOnCompactionStart fun v => accessHintOfInt <$> v.asInt),
    ("disable_auto_compactions", .assign .disableAutoCompactions asIntToBool),
    ("report_bg_io_stats", .assign .reportBgIoStats asIntToBool),
    ("compression", .assign .compression fun v => compressionOfInt <$> v.asInt),
    ("compaction_style", .check Value.asInt),
    -- bool options
    ("create_if_missing", .assign .createIfMissing Value.asBool),
    ("create_missing_column_families", .assign .createMissingColumnFamilies Value.asBool),
    ("error_if_exists", .assign .errorIfExists Value.asBool),
    ("paranoid_checks", .assign .paranoidChecks Value.asBool),
    ("allow_mmap_reads", .assign .allowMmapReads Value.asBool),
    ("allow_mmap_writes", .assign .allowMmapWrites Value.asBool),
    ("is_fd_close_on_exec", .assign .isFdCloseOnExec Value.asBool),
    ("advise_random_on_open", .assign .adviseRandomOnOpen Value.asBool),
    ("use_adaptive_mutex", .assign .useAdaptiveMutex Value.asBool),
    ("inplace_update_support", .assign .inplaceUpdateSupport Value.asBool),
    -- uint64 options
    ("optimize_for_point_lookup", .tune Value.asUInt64 OptionsApi.optimizeForPointLookup),
    ("optimize_level_style_compaction",
      .tune Value.asUInt64 OptionsApi.optimizeLevelStyleCompaction),
    ("optimize_universal_style_compaction",
      .tune Value.asUInt64 OptionsApi.optimizeUniversalStyleCompaction),
    ("max_total_wal_size", .assign .maxTotalWalSize Value.asUInt64),
    ("target_file_size_base", .assign .targetFileSizeBase Value.asUInt64),
    ("max_bytes_for_level_base", .assign .maxBytesForLevelBase Value.asUInt64),
    ("WAL_ttl_seconds", .assign .walTtlSeconds Value.asUInt64),
    ("WAL_size_limit_MB", .assign .walSizeLimitMB Value.asUInt64),
    ("bytes_per_sync", .assign .bytesPerSync Value.asUInt64),
    ("max_sequential_skip_in_iterations",
      .assign .maxSequentialSkipInIterations Value.asUInt64),
    ("delete_obsolete_files_period_micros",
      .assign .deleteObsoleteFilesPeriodMicros Value.asUInt64) ]

/-- The branch that a key takes, none for a key that the chain ignores. -/
def branch? (key : Bytes) : Option Branch :=
  (branches.find? fun b => ascii b.1 = key).map Prod.snd

/-- What a branch does to the options. -/
def Branch.run (api : OptionsApi) (v : Value) (options : Options) : Branch → Outcome Options
  | .assign f convert => do return options.set f (← convert v)
  | .tune convert call => do return call api (← convert v) options
  | .check convert => do let _ ← convert v; return options

/-- One turn of the loop of `options_from_json`. -/
def step (api : OptionsApi) (options : Options) (entry : Bytes × Value) : Outcome Options :=
  match branch? entry.1 with
  | none => return options
  | some b => b.run api entry.2 options

end OptionsFromJson

/-- `options_from_json`. -/
def optionsFromJson (api : OptionsApi) (json : Json.Value) : Outcome Options :=
  json.entries.foldlM (OptionsFromJson.step api) api.defaults

end RocksdbService
