import RocksdbService.Verify.Instance

/-! # The documented options

The README gives for each option its key and the kind of its value (`Options.Field.documented`), and four
tuning calls have keys of their own (`Bulk`). `options_from_json` is the fold of what these say over
the members in key order; without the tuning calls each field comes from the member at its key alone
(`optionsFromJson_documented`). -/

namespace RocksdbService

open Outcome
open Json (Value)

namespace Options

/-- The value with this number in an enumeration that the README lists, `other` for a number that is not
listed. -/
def enumerated {α : Type} (values : List α) (other : α) (number : Int) : α :=
  if 0 ≤ number then values.getD number.toNat other else other

/-- An int that stands for a truth value. -/
def intFlag (v : Value) : Outcome Bool := (fun i => decide (i ≠ 0)) <$> v.asInt

/-- The key that the README documents for a field, and how its value is converted. -/
def Field.documented : (f : Field) → Option (String × (Value → Outcome f.Type))
  | .infoLogLevel => some ("info_log_level", fun v =>
      enumerated [.debug, .info, .warn, .error, .fatal, .header] .debug <$> v.asInt)
  | .maxOpenFiles => some ("max_open_files", Value.asInt)
  | .numLevels => some ("num_levels", Value.asInt)
  | .level0FileNumCompactionTrigger => some ("level0_file_num_compaction_trigger", Value.asInt)
  | .level0SlowdownWritesTrigger => some ("level0_slowdown_writes_trigger", Value.asInt)
  | .level0StopWritesTrigger => some ("level0_stop_writes_trigger", Value.asInt)
  | .targetFileSizeMultiplier => some ("target_file_size_multiplier", Value.asInt)
  | .maxWriteBufferNumber => some ("max_write_buffer_number", Value.asInt)
  | .minWriteBufferNumberToMerge => some ("min_write_buffer_number_to_merge", Value.asInt)
  | .maxWriteBufferNumberToMaintain => some ("max_write_buffer_number_to_maintain", Value.asInt)
  | .maxBackgroundCompactions => some ("max_background_compactions", Value.asInt)
  | .maxBackgroundFlushes => some ("max_background_flushes", Value.asInt)
  | .tableCacheNumshardbits => some ("table_cache_numshardbits", Value.asInt)
  | .useFsync => some ("use_fsync", intFlag)
  | .accessHintOnCompactionStart => some ("access_hint_on_compaction_start", fun v =>
      enumerated [.none, .normal, .sequential, .willNeed] .normal <$> v.asInt)
  | .disableAutoCompactions => some ("disable_auto_compactions", intFlag)
  | .reportBgIoStats => some ("report_bg_io_stats", intFlag)
  | .compression => some ("compression", fun v =>
      enumerated [.noCompression, .snappy, .zlib, .bzip2, .lz4, .lz4hc, .xpress, .zstd,
        .zstdNotFinal, .disableCompressionOption] .noCompression <$> v.asInt)
  | .createIfMissing => some ("create_if_missing", Value.asBool)
  | .createMissingColumnFamilies => some ("create_missing_column_families", Value.asBool)
  | .errorIfExists => some ("error_if_exists", Value.asBool)
  | .paranoidChecks => some ("paranoid_checks", Value.asBool)
  | .allowMmapReads => some ("allow_mmap_reads", Value.asBool)
  | .allowMmapWrites => some ("allow_mmap_writes", Value.asBool)
  | .isFdCloseOnExec => some ("is_fd_close_on_exec", Value.asBool)
  | .adviseRandomOnOpen => some ("advise_random_on_open", Value.asBool)
  | .useAdaptiveMutex => some ("use_adaptive_mutex", Value.asBool)
  | .inplaceUpdateSupport => some ("inplace_update_support", Value.asBool)
  | .maxTotalWalSize => some ("max_total_wal_size", Value.asUInt64)
  | .targetFileSizeBase => some ("target_file_size_base", Value.asUInt64)
  | .maxBytesForLevelBase => some ("max_bytes_for_level_base", Value.asUInt64)
  | .walTtlSeconds => some ("WAL_ttl_seconds", Value.asUInt64)
  | .walSizeLimitMB => some ("WAL_size_limit_MB", Value.asUInt64)
  | .bytesPerSync => some ("bytes_per_sync", Value.asUInt64)
  | .maxSequentialSkipInIterations => some ("max_sequential_skip_in_iterations", Value.asUInt64)
  | .deleteObsoleteFilesPeriodMicros =>
      some ("delete_obsolete_files_period_micros", Value.asUInt64)
  | .writeBufferSize | .compactionStyle | .compressionPerLevel | .maxBackgroundJobs => none

def Field.all : List Field :=
  [.infoLogLevel, .maxOpenFiles, .numLevels, .level0FileNumCompactionTrigger,
    .level0SlowdownWritesTrigger, .level0StopWritesTrigger, .targetFileSizeMultiplier,
    .maxWriteBufferNumber, .minWriteBufferNumberToMerge, .maxWriteBufferNumberToMaintain,
    .maxBackgroundCompactions, .maxBackgroundFlushes, .tableCacheNumshardbits, .useFsync,
    .accessHintOnCompactionStart, .disableAutoCompactions, .reportBgIoStats, .compression,
    .createIfMissing, .createMissingColumnFamilies, .errorIfExists, .paranoidChecks,
    .allowMmapReads, .allowMmapWrites, .isFdCloseOnExec, .adviseRandomOnOpen, .useAdaptiveMutex,
    .inplaceUpdateSupport, .maxTotalWalSize, .targetFileSizeBase, .maxBytesForLevelBase,
    .walTtlSeconds, .walSizeLimitMB, .bytesPerSync, .maxSequentialSkipInIterations,
    .deleteObsoleteFilesPeriodMicros, .writeBufferSize, .compactionStyle, .compressionPerLevel,
    .maxBackgroundJobs]

theorem Field.mem_all (f : Field) : f ∈ Field.all := by cases f <;> decide

/-- The bytes of the documented key. -/
def Field.key? (f : Field) : Option Bytes := f.documented.map fun d => ascii d.1

/-- The value for a field that a member at its key gives. -/
def Field.convert? (f : Field) (v : Value) : Option (Outcome f.Type) :=
  f.documented.map fun d => d.2 v

end Options

open Options (Field)

/-- The tuning calls that have a key. -/
inductive Bulk
  | increaseParallelism | optimizeForPointLookup | optimizeLevelStyleCompaction
  | optimizeUniversalStyleCompaction
  deriving DecidableEq

def Bulk.all : List Bulk := [.increaseParallelism, .optimizeForPointLookup,
  .optimizeLevelStyleCompaction, .optimizeUniversalStyleCompaction]

def Bulk.key : Bulk → Bytes
  | increaseParallelism => ascii "increase_parallelism"
  | optimizeForPointLookup => ascii "optimize_for_point_lookup"
  | optimizeLevelStyleCompaction => ascii "optimize_level_style_compaction"
  | optimizeUniversalStyleCompaction => ascii "optimize_universal_style_compaction"

/-- The call with the converted value. -/
def Bulk.call (api : OptionsApi) (v : Value) (o : Options) : Bulk → Outcome Options
  | increaseParallelism => do return api.increaseParallelism (← v.asInt) o
  | optimizeForPointLookup => do return api.optimizeForPointLookup (← v.asUInt64) o
  | optimizeLevelStyleCompaction => do return api.optimizeLevelStyleCompaction (← v.asUInt64) o
  | optimizeUniversalStyleCompaction => do
    return api.optimizeUniversalStyleCompaction (← v.asUInt64) o

/-- The key that is accepted with an int and changes nothing. -/
def compactionStyleKey : Bytes := ascii "compaction_style"

/-- What the documentation says of one member. -/
def documentedStep (api : OptionsApi) (o : Options) (p : Bytes × Value) : Outcome Options :=
  match Field.all.find? fun f => f.key? = some p.1 with
  | some f =>
    match f.convert? p.2 with
    | some x => do return o.set f (← x)
    | none => return o
  | none =>
    match Bulk.all.find? fun b => b.key = p.1 with
    | some b => b.call api p.2 o
    | none => if p.1 = compactionStyleKey then do let _ ← p.2.asInt; return o else return o

namespace OptionsFromJson

theorem infoLogLevelOfInt_eq : infoLogLevelOfInt =
    Options.enumerated [.debug, .info, .warn, .error, .fatal, .header] .debug := by
  funext i
  rcases i with n | n
  · rcases n with _ | _ | _ | _ | _ | _ | n <;> rfl
  · rfl

theorem accessHintOfInt_eq : accessHintOfInt =
    Options.enumerated [.none, .normal, .sequential, .willNeed] .normal := by
  funext i
  rcases i with n | n
  · rcases n with _ | _ | _ | _ | n <;> rfl
  · rfl

theorem compressionOfInt_eq : compressionOfInt =
    Options.enumerated [.noCompression, .snappy, .zlib, .bzip2, .lz4, .lz4hc, .xpress, .zstd,
      .zstdNotFinal, .disableCompressionOption] .noCompression := by
  funext i
  rcases i with n | n
  · rcases n with _ | _ | _ | _ | _ | _ | _ | _ | _ | _ | n <;> rfl
  · rfl

/-- The branch at a documented key assigns the field. -/
theorem branch?_of_documented {f : Field} {k : String} {convert : Value → Outcome f.Type}
    (h : f.documented = some (k, convert)) : branch? (ascii k) = some (.assign f convert) := by
  cases f <;> cases h
  case infoLogLevel => rw [← infoLogLevelOfInt_eq]; rfl
  case accessHintOnCompactionStart => rw [← accessHintOfInt_eq]; rfl
  case compression => rw [← compressionOfInt_eq]; rfl
  all_goals rfl

theorem branch?_of_key {f : Field} {key : Bytes} (h : f.key? = some key) :
    ∃ k convert, f.documented = some (k, convert) ∧ key = ascii k ∧
      branch? key = some (.assign f convert) := by
  obtain ⟨⟨k, convert⟩, hd, rfl⟩ := Option.map_eq_some_iff.mp h
  exact ⟨k, convert, hd, rfl, branch?_of_documented hd⟩

/-- No two fields share a key. -/
theorem key?_injective {f g : Field} {key : Bytes} (hf : f.key? = some key) (hg : g.key? = some key) :
    f = g := by
  obtain ⟨_, _, _, _, hf'⟩ := branch?_of_key hf
  obtain ⟨_, _, _, _, hg'⟩ := branch?_of_key hg
  cases hf'.symm.trans hg'
  rfl

theorem find?_field {f : Field} {key : Bytes} (h : f.key? = some key) :
    Field.all.find? (fun f => f.key? = some key) = some f := by
  cases hfind : Field.all.find? (fun f => f.key? = some key) with
  | none =>
    have := List.find?_eq_none.mp hfind f f.mem_all
    simp [h] at this
  | some g =>
    have hg := List.find?_some hfind
    rw [key?_injective h (of_decide_eq_true hg)]

theorem step_of_documented {api : OptionsApi} {f : Field} {k : String}
    {convert : Value → Outcome f.Type} (h : f.documented = some (k, convert)) (v : Value)
    (o : Options) : step api o (ascii k, v) = do return o.set f (← convert v) := by
  rw [step, branch?_of_documented h]
  rfl

theorem step_of_bulk {api : OptionsApi} (b : Bulk) (v : Value) (o : Options) :
    step api o (b.key, v) = b.call api v o := by
  cases b <;> rfl

theorem step_of_style {api : OptionsApi} (v : Value) (o : Options) :
    step api o (compactionStyleKey, v) = do let _ ← v.asInt; return o := rfl

/-- The keys that the chain of `options_from_json` tests. -/
theorem key_cases {key : Bytes} {b : Branch} (h : branch? key = some b) :
    (∃ f : Field, f.key? = some key) ∨ (∃ b : Bulk, b.key = key) ∨ key = compactionStyleKey := by
  obtain ⟨⟨k, b⟩, hfind, rfl⟩ := Option.map_eq_some_iff.mp h
  have hkey := List.find?_some hfind
  replace hkey : ascii k = key := of_decide_eq_true hkey
  have hmem : key ∈ branches.map fun b => ascii b.1 :=
    hkey ▸ List.mem_map_of_mem (List.mem_of_find?_eq_some hfind)
  have hall : ∀ key ∈ branches.map fun b => ascii b.1,
      (∃ f ∈ Field.all, f.key? = some key) ∨ (∃ b ∈ Bulk.all, b.key = key) ∨
        key = compactionStyleKey := by
    decide +kernel
  rcases hall key hmem with ⟨f, -, hf⟩ | ⟨b, -, hb⟩ | hs
  · exact .inl ⟨f, hf⟩
  · exact .inr (.inl ⟨b, hb⟩)
  · exact .inr (.inr hs)

theorem step_eq_documentedStep (api : OptionsApi) (o : Options) (p : Bytes × Value) :
    step api o p = documentedStep api o p := by
  obtain ⟨key, v⟩ := p
  unfold documentedStep
  cases hfield : Field.all.find? (fun f => f.key? = some key) with
  | some f =>
    have hf := List.find?_some hfield
    obtain ⟨k, convert, hd, rfl, -⟩ := branch?_of_key (of_decide_eq_true hf)
    simp only [Field.convert?, hd, Option.map_some]
    exact step_of_documented hd v o
  | none =>
    have hnone : ∀ f : Field, f.key? ≠ some key := fun f hf => by
      rw [find?_field hf] at hfield
      cases hfield
    dsimp only
    cases hbulk : Bulk.all.find? (fun b => b.key = key) with
    | some b =>
      have hb := List.find?_some hbulk
      obtain rfl : b.key = key := of_decide_eq_true hb
      exact step_of_bulk b v o
    | none =>
      dsimp only
      split
      · next hs => subst hs; exact step_of_style v o
      · next hs =>
        unfold step
        cases hb : branch? key with
        | none => rfl
        | some b =>
          rcases key_cases hb with ⟨f, hf⟩ | ⟨b', hb'⟩ | hs'
          · exact absurd hf (hnone f)
          · have hmem : b' ∈ Bulk.all := by cases b' <;> decide
            have := List.find?_eq_none.mp hbulk b' hmem
            simp [hb'] at this
          · exact absurd hs' hs

end OptionsFromJson

/-! ## Without tuning calls -/

/-- No member has the key of a tuning call. -/
def NoBulk (ms : Json.Members) : Prop := ∀ b : Bulk, OrdMap.find? ms b.key = none

/-- The values at the documented keys convert. -/
structure Convertible (ms : Json.Members) : Prop where
  fields : ∀ (f : Field) key v x, f.key? = some key → OrdMap.find? ms key = some v →
    f.convert? v = some x → Returns x
  style : ∀ v, OrdMap.find? ms compactionStyleKey = some v → Returns v.asInt

/-- Each field has the value that the member at its key gives, or keeps the one it had. -/
def Follows (ms : Json.Members) (o o' : Options) : Prop :=
  ∀ f : Field, match f.key?.bind (OrdMap.find? ms) with
    | some v => f.convert? v = some (.ok (o' f))
    | none => o' f = o f

/-- The step at a member whose key belongs to no tuning call. -/
theorem documentedStep_cases (api : OptionsApi) (o : Options) {key : Bytes} (v : Value)
    (hbulk : ∀ b : Bulk, b.key ≠ key) :
    (∃ f x, f.key? = some key ∧ f.convert? v = some x ∧
      documentedStep api o (key, v) = do return o.set f (← x)) ∨
    (∀ f : Field, f.key? ≠ some key) ∧ documentedStep api o (key, v) =
      if key = compactionStyleKey then do let _ ← v.asInt; return o else .ok o := by
  unfold documentedStep
  cases hfield : Field.all.find? (fun f => f.key? = some key) with
  | some f =>
    have hf := List.find?_some hfield
    obtain ⟨k, convert, hd, rfl, -⟩ := OptionsFromJson.branch?_of_key (of_decide_eq_true hf)
    refine .inl ⟨f, convert v, of_decide_eq_true hf, by simp [Field.convert?, hd], ?_⟩
    simp only [Field.convert?, hd, Option.map_some]
  | none =>
    refine .inr ⟨fun f hf => ?_, ?_⟩
    · rw [OptionsFromJson.find?_field hf] at hfield
      cases hfield
    · have hnone : Bulk.all.find? (fun b => b.key = key) = none :=
        List.find?_eq_none.mpr fun b _ => by simp [hbulk b]
      rw [hnone]
      rfl

theorem follows_of_steps (api : OptionsApi) {ms : Json.Members} (hs : OrdMap.Sorted ms)
    (hbulk : NoBulk ms) (hc : Convertible ms) (o : Options) :
    ∃ o', ms.foldlM (documentedStep api) o = .ok o' ∧ Follows ms o o' := by
  induction ms generalizing o with
  | nil => exact ⟨o, rfl, fun f => by cases f.key? <;> rfl⟩
  | cons p ms ih =>
    obtain ⟨key, v⟩ := p
    have hkey : OrdMap.find? ms key = none :=
      OrdMap.find?_eq_none_of_lt (List.pairwise_cons.mp hs).1
    have hself : OrdMap.find? ((key, v) :: ms) key = some v := if_pos rfl
    have hother : ∀ {k : Bytes}, k ≠ key → OrdMap.find? ((key, v) :: ms) k = OrdMap.find? ms k :=
      fun hne => if_neg hne
    have hbulk' : NoBulk ms := fun b => by
      by_cases hb : b.key = key
      · rw [hb, hkey]
      · rw [← hother hb, hbulk b]
    have hne : ∀ {k : Bytes} {w : Value}, OrdMap.find? ms k = some w → k ≠ key := by
      rintro k w hw rfl
      rw [hkey] at hw
      cases hw
    have hc' : Convertible ms := by
      refine ⟨fun f k w x hf hw => hc.fields f k w x hf ?_, fun w hw => hc.style w ?_⟩
      · rw [hother (hne hw), hw]
      · rw [hother (hne hw), hw]
    rcases documentedStep_cases api o v (fun b hb => by
        have := hbulk b
        rw [hb, hself] at this
        cases this) with ⟨f, x, hf, hx, hstep⟩ | ⟨hnone, hstep⟩
    · obtain ⟨y, rfl⟩ := hc.fields f key v x hf hself hx
      obtain ⟨o', hfold, hfollows⟩ := ih hs.tail hbulk' hc' (o.set f y)
      refine ⟨o', by rw [List.foldlM_cons, hstep]; exact hfold, fun g => ?_⟩
      have hg := hfollows g
      by_cases hgf : g = f
      · subst hgf
        rw [hf, Option.bind_some, hkey] at hg
        rw [hf, Option.bind_some, hself]
        dsimp only at hg ⊢
        rw [hg, Options.set_self, hx]
      · have heq : g.key?.bind (OrdMap.find? ((key, v) :: ms)) = g.key?.bind (OrdMap.find? ms) := by
          cases hk : g.key? with
          | none => rfl
          | some k =>
            apply hother
            rintro rfl
            exact hgf (OptionsFromJson.key?_injective hk hf)
        rw [heq]
        rw [Options.set_of_ne o y hgf] at hg
        exact hg
    · have hok : documentedStep api o (key, v) = .ok o := by
        rw [hstep]
        split
        · next hk =>
          obtain ⟨i, hi⟩ := hc.style v (hk ▸ hself)
          rw [hi]
          rfl
        · rfl
      obtain ⟨o', hfold, hfollows⟩ := ih hs.tail hbulk' hc' o
      refine ⟨o', by rw [List.foldlM_cons, hok]; exact hfold, fun g => ?_⟩
      have heq : g.key?.bind (OrdMap.find? ((key, v) :: ms)) = g.key?.bind (OrdMap.find? ms) := by
        cases hk : g.key? with
        | none => rfl
        | some k =>
          apply hother
          rintro rfl
          exact hnone g hk
      rw [heq]
      exact hfollows g

/-! ## What the members have to do with the fields -/

/-- The value of a field depends only on the member at its key. -/
theorem Follows.congr {ms ms' : Json.Members} {o o₁ o₂ : Options} (h₁ : Follows ms o o₁)
    (h₂ : Follows ms' o o₂) {f : Field}
    (hf : ∀ key, f.key? = some key → OrdMap.find? ms' key = OrdMap.find? ms key) : o₂ f = o₁ f := by
  have h₁ := h₁ f
  have h₂ := h₂ f
  cases hk : f.key? with
  | none =>
    rw [hk] at h₁ h₂
    exact h₂.trans h₁.symm
  | some key =>
    rw [hk, Option.bind_some] at h₁ h₂
    rw [hf key hk] at h₂
    cases hv : OrdMap.find? ms key with
    | none =>
      rw [hv] at h₁ h₂
      exact h₂.trans h₁.symm
    | some v =>
      rw [hv] at h₁ h₂
      exact Except.ok.inj (Option.some.inj (h₂.symm.trans h₁))

/-- The member of a field. -/
def Options.Field.isSetBy (f : Field) (ms : Json.Members) : Bool :=
  (f.key?.bind (OrdMap.find? ms)).isSome

/-- The members of two objects without a common key, together. -/
structure Merges (ms ms' m : Json.Members) : Prop where
  disjoint : ∀ key, OrdMap.find? ms key = none ∨ OrdMap.find? ms' key = none
  merged : ∀ key, OrdMap.find? m key = (OrdMap.find? ms key).or (OrdMap.find? ms' key)

theorem Merges.cases {ms ms' m : Json.Members} (h : Merges ms ms' m) (key : Bytes) :
    OrdMap.find? m key = OrdMap.find? ms key ∨ OrdMap.find? m key = OrdMap.find? ms' key := by
  rw [h.merged key]
  cases OrdMap.find? ms key with
  | none => exact .inr rfl
  | some v => exact .inl rfl

theorem Merges.noBulk {ms ms' m : Json.Members} (h : Merges ms ms' m) (hb : NoBulk ms)
    (hb' : NoBulk ms') : NoBulk m := by
  intro b
  rw [h.merged, hb b, hb' b]
  rfl

theorem Merges.convertible {ms ms' m : Json.Members} (h : Merges ms ms' m) (hc : Convertible ms)
    (hc' : Convertible ms') : Convertible m := by
  refine ⟨fun f key v x hf hv => ?_, fun v hv => ?_⟩
  · rcases h.cases key with heq | heq
    · exact hc.fields f key v x hf (heq ▸ hv)
    · exact hc'.fields f key v x hf (heq ▸ hv)
  · rcases h.cases compactionStyleKey with heq | heq
    · exact hc.style v (heq ▸ hv)
    · exact hc'.style v (heq ▸ hv)

theorem optionsFromJson_eq (api : OptionsApi) (ms : Json.Members) :
    optionsFromJson api (.object ms) = ms.foldlM (documentedStep api) api.defaults := by
  have : OptionsFromJson.step api = documentedStep api := by
    funext o p
    exact OptionsFromJson.step_eq_documentedStep api o p
  rw [optionsFromJson, this]
  rfl

/-- `options_from_json` does what the documentation says of the members, in key order; without the keys
of tuning calls each documented field follows the member at its own key, whatever the others are. -/
theorem optionsFromJson_documented (api : OptionsApi) {ms : Json.Members} (hs : OrdMap.Sorted ms) :
    optionsFromJson api (.object ms) = ms.foldlM (documentedStep api) api.defaults ∧
    (NoBulk ms → Convertible ms → ∃ options, optionsFromJson api (.object ms) = .ok options ∧
      Follows ms api.defaults options ∧
      ∀ ms', OrdMap.Sorted ms' → NoBulk ms' → Convertible ms' →
        ∃ options', optionsFromJson api (.object ms') = .ok options' ∧
          (∀ key, (∀ k, k ≠ key → OrdMap.find? ms' k = OrdMap.find? ms k) →
            ∀ f : Field, f.key? ≠ some key → options' f = options f) ∧
          ∀ m, OrdMap.Sorted m → Merges ms ms' m →
            ∃ merged, optionsFromJson api (.object m) = .ok merged ∧
              ∀ f : Field, merged f = if f.isSetBy ms then options f else options' f) := by
  refine ⟨optionsFromJson_eq api ms, fun hb hc => ?_⟩
  obtain ⟨options, heq, hfollows⟩ := follows_of_steps api hs hb hc api.defaults
  refine ⟨options, (optionsFromJson_eq api ms).trans heq, hfollows, fun ms' hs' hb' hc' => ?_⟩
  obtain ⟨options', heq', hfollows'⟩ := follows_of_steps api hs' hb' hc' api.defaults
  refine ⟨options', (optionsFromJson_eq api ms').trans heq', fun key hsame f hf => ?_,
    fun m hm hmerge => ?_⟩
  · exact hfollows.congr hfollows' fun k hk => hsame k fun h => hf (h ▸ hk)
  · obtain ⟨merged, heq₃, hfollows₃⟩ := follows_of_steps api hm (hmerge.noBulk hb hb')
      (hmerge.convertible hc hc') api.defaults
    refine ⟨merged, (optionsFromJson_eq api m).trans heq₃, fun f => ?_⟩
    unfold Field.isSetBy
    cases hset : (f.key?.bind (OrdMap.find? ms)).isSome with
    | true =>
      refine hfollows.congr hfollows₃ fun key hk => ?_
      rw [hk, Option.bind_some, Option.isSome_iff_exists] at hset
      obtain ⟨v, hv⟩ := hset
      rw [hmerge.merged, hv]
      rfl
    | false =>
      refine hfollows'.congr hfollows₃ fun key hk => ?_
      rw [hk, Option.bind_some, Option.isSome_eq_false_iff, Option.isNone_iff_eq_none] at hset
      rw [hmerge.merged, hset]
      rfl

/-- `{"max_open_files":5,"num_levels":4}`. -/
def twoOptions : Json.Members := [(ascii "max_open_files", .int 5), (ascii "num_levels", .int 4)]

theorem twoOptions_key {key : Bytes} {v : Value} (h : OrdMap.find? twoOptions key = some v) :
    key = ascii "max_open_files" ∧ v = .int 5 ∨ key = ascii "num_levels" ∧ v = .int 4 := by
  unfold twoOptions OrdMap.find? OrdMap.find? OrdMap.find? at h
  split at h
  · next hk => exact .inl ⟨hk, (Option.some.inj h).symm⟩
  · split at h
    · next hk => exact .inr ⟨hk, (Option.some.inj h).symm⟩
    · cases h

theorem twoOptions_convertible : Convertible twoOptions := by
  refine ⟨fun f key v x hf hv hx => ?_, fun v hv => ?_⟩
  · rcases twoOptions_key hv with ⟨rfl, rfl⟩ | ⟨rfl, rfl⟩
    · obtain rfl : f = .maxOpenFiles := OptionsFromJson.key?_injective hf rfl
      cases hx
      exact ⟨5, rfl⟩
    · obtain rfl : f = .numLevels := OptionsFromJson.key?_injective hf rfl
      cases hx
      exact ⟨4, rfl⟩
  · have hne : compactionStyleKey ≠ ascii "max_open_files" ∧
        compactionStyleKey ≠ ascii "num_levels" := by decide +kernel
    rcases twoOptions_key hv with ⟨hk, -⟩ | ⟨hk, -⟩
    · exact absurd hk hne.1
    · exact absurd hk hne.2

theorem optionsFromJson_two_options : ∃ options,
    optionsFromJson rocksdbApi (.object twoOptions) = .ok options ∧
      options .maxOpenFiles = 5 ∧ options .numLevels = 4 := by
  have hs : OrdMap.Sorted twoOptions := by
    simp only [twoOptions, OrdMap.Sorted, List.pairwise_pair]
    decide +kernel
  obtain ⟨options, heq, hfollows, -⟩ := (optionsFromJson_documented rocksdbApi hs).2
    (fun b => by cases b <;> decide +kernel) twoOptions_convertible
  refine ⟨options, heq, ?_, ?_⟩
  · have := hfollows .maxOpenFiles
    exact (Except.ok.inj (Option.some.inj this)).symm
  · have := hfollows .numLevels
    exact (Except.ok.inj (Option.some.inj this)).symm

end RocksdbService
