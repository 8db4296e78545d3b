import RocksdbService.Verify.ConfigFile
import RocksdbService.Verify.Creation
import RocksdbService.Verify.Documented

/-! # The options in force

What an entry of the config file gives a field (`Gives`) goes through the tuning calls of `read_config`
and, in an entry with families, not into `open` at all. Given what RocksDB documents of these calls,
`inForce_iff` says which values are in force in the end, and when `create_if_missing` and
`create_missing_column_families` are heeded. -/

namespace RocksdbService

open Outcome
open Json (Value)
open Options (Field)

namespace Options

/-- The compression of a level: `compression_per_level` goes before `compression`, and its last entry
is for the levels beyond it. -/
def compressionAt (o : Options) (level : Nat) : Compression :=
  (o .compressionPerLevel).getD (min level ((o .compressionPerLevel).length - 1)) (o .compression)

/-- The value is the one that RocksDB goes by. -/
def InForce (o : Options) : (f : Field) → f.Type → Prop
  | .compression, x => ∀ level, o.compressionAt level = x
  | f, x => o f = x

theorem inForce_of_ne (o : Options) {f : Field} (hf : f ≠ .compression) (x : f.Type) :
    o.InForce f x ↔ o f = x := by
  cases f <;> first | exact Iff.rfl | exact absurd rfl hf

theorem inForce_compression (o : Options) : o.InForce .compression (o .compression) ↔
    ∀ c ∈ o .compressionPerLevel, c = o .compression := by
  constructor
  · intro h c hc
    obtain ⟨i, hi, rfl⟩ := List.mem_iff_getElem.mp hc
    have := h i
    rwa [compressionAt, Nat.min_eq_left (by omega), List.getD_eq_getElem?_getD,
      List.getElem?_eq_getElem hi, Option.getD_some] at this
  · intro h level
    unfold compressionAt
    cases hc : (o .compressionPerLevel)[min level ((o .compressionPerLevel).length - 1)]? with
    | none => rw [List.getD_eq_getElem?_getD, hc]; rfl
    | some c =>
      rw [List.getD_eq_getElem?_getD, hc]
      exact h c (List.mem_of_getElem? hc)

/-- The fields that `OptimizeLevelStyleCompaction` sets. -/
def levelStyleFields : List Field :=
  [.writeBufferSize, .minWriteBufferNumberToMerge, .maxWriteBufferNumber,
    .level0FileNumCompactionTrigger, .targetFileSizeBase, .maxBytesForLevelBase, .compactionStyle,
    .compressionPerLevel]

/-- The fields that `OptimizeUniversalStyleCompaction` sets. -/
def universalStyleFields : List Field :=
  [.writeBufferSize, .minWriteBufferNumberToMerge, .maxWriteBufferNumber, .compactionStyle]

theorem levelStyleFields_of_universal {f : Field} (h : f ∈ universalStyleFields) :
    f ∈ levelStyleFields := by
  revert h
  cases f <;> decide

end Options

open Options (levelStyleFields universalStyleFields)

/-- What RocksDB documents of the tuning calls and of its defaults. -/
structure OptionsApi.AsDocumented (api : OptionsApi) : Prop extends api.CreatesNothing where
  parallelism : ∀ n o f, f ≠ .maxBackgroundJobs → api.increaseParallelism n o f = o f
  pointLookup : ∀ n o f, api.optimizeForPointLookup n o f = o f
  universalStyle : ∀ n o f, f ∉ universalStyleFields →
    api.optimizeUniversalStyleCompaction n o f = o f
  levelStyle : ∀ n o f, f ∉ levelStyleFields → api.optimizeLevelStyleCompaction n o f = o f
  /-- The values that it sets do not depend on the options, … -/
  levelStyle_sets : ∀ n o o' f, f ∈ levelStyleFields → f ≠ .compressionPerLevel →
    api.optimizeLevelStyleCompaction n o f = api.optimizeLevelStyleCompaction n o' f
  /-- … the compressions of the levels only on how many there are. -/
  perLevel : ∀ n o o', o .numLevels = o' .numLevels →
    api.optimizeLevelStyleCompaction n o .compressionPerLevel =
      api.optimizeLevelStyleCompaction n o' .compressionPerLevel

/-! ## From an entry to the configuration -/

/-- A tuning call with a key leaves a field alone that the calls do not set. -/
theorem Bulk.call_frame {api : OptionsApi} (hapi : api.AsDocumented) {b : Bulk} {v : Value}
    {o o' : Options} {f : Field} (hf : f ∉ levelStyleFields) (hjobs : f ≠ .maxBackgroundJobs)
    (h : b.call api v o = .ok o') : o' f = o f := by
  cases b with
  | increaseParallelism =>
    obtain ⟨n, -, h⟩ := bind_eq_ok.mp h
    cases h
    exact hapi.parallelism n o f hjobs
  | optimizeForPointLookup =>
    obtain ⟨n, -, h⟩ := bind_eq_ok.mp h
    cases h
    exact hapi.pointLookup n o f
  | optimizeLevelStyleCompaction =>
    obtain ⟨n, -, h⟩ := bind_eq_ok.mp h
    cases h
    exact hapi.levelStyle n o f hf
  | optimizeUniversalStyleCompaction =>
    obtain ⟨n, -, h⟩ := bind_eq_ok.mp h
    cases h
    exact hapi.universalStyle n o f (mt Options.levelStyleFields_of_universal hf)

/-- A member whose key is not that of the field leaves it alone. -/
theorem documentedStep_frame {api : OptionsApi} (hapi : api.AsDocumented) {o o' : Options}
    {p : Bytes × Value} {f : Field} (hf : f ∉ levelStyleFields) (hjobs : f ≠ .maxBackgroundJobs)
    (hkey : f.key? ≠ some p.1) (h : documentedStep api o p = .ok o') : o' f = o f := by
  unfold documentedStep at h
  split at h
  · next g hg =>
    have hg := List.find?_some hg
    have hne : f ≠ g := fun heq => hkey (heq ▸ of_decide_eq_true hg)
    split at h
    · obtain ⟨x, -, h⟩ := bind_eq_ok.mp h
      cases h
      exact Options.set_of_ne o x hne
    · cases h; rfl
  · split at h
    · exact Bulk.call_frame hapi hf hjobs h
    · split at h
      · obtain ⟨i, -, h⟩ := bind_eq_ok.mp h
        cases h
        rfl
      · cases h; rfl

/-- The member at the key of a field sets it. -/
theorem documentedStep_self {api : OptionsApi} {o o' : Options} {key : Bytes} {v : Value} {f : Field}
    (hkey : f.key? = some key) (h : documentedStep api o (key, v) = .ok o') :
    f.convert? v = some (.ok (o' f)) := by
  obtain ⟨k, convert, hd, rfl, -⟩ := OptionsFromJson.branch?_of_key hkey
  rw [documentedStep, OptionsFromJson.find?_field hkey] at h
  simp only [Field.convert?, hd, Option.map_some] at h ⊢
  obtain ⟨x, hx, h⟩ := bind_eq_ok.mp h
  cases h
  rw [hx, Options.set_self]

/-- Whatever the other members are, a field that no tuning call sets has the value of its member. -/
theorem optionsFromJson_field {api : OptionsApi} (hapi : api.AsDocumented) {options : Value}
    (hwf : options.WellFormed) {o : Options} (h : optionsFromJson api options = .ok o) {f : Field}
    (hf : f ∉ levelStyleFields) {key : Bytes} (hkey : f.key? = some key) :
    match OrdMap.find? options.entries key with
    | none => o f = api.defaults f
    | some v => f.convert? v = some (.ok (o f)) := by
  have hjobs : f ≠ .maxBackgroundJobs := by rintro rfl; cases hkey
  rw [optionsFromJson, show OptionsFromJson.step api = documentedStep api from
    funext fun o => funext fun p => OptionsFromJson.step_eq_documentedStep api o p] at h
  have hpart := OrdMap.foldlM_part (fun o : Options => o f) key
    (fun v _ x => f.convert? v = some (.ok x))
    (fun {o p o'} hne h => documentedStep_frame hapi hf hjobs
      (by rw [hkey]; exact fun heq => hne (Option.some.inj heq).symm) h)
    (fun {o v o'} h => documentedStep_self hkey h) hwf.entries_nodup h
  cases hv : OrdMap.find? options.entries key with
  | none =>
    rw [hv] at hpart
    exact hpart
  | some v =>
    rw [hv] at hpart
    exact hpart

/-- The entry has the documented key of the field, with a value that converts. -/
def Gives (entry : Value) (f : Field) (x : f.Type) : Prop :=
  ∃ options key v, OrdMap.find? entry.entries (ascii "options") = some options ∧
    f.key? = some key ∧ OrdMap.find? options.entries key = some v ∧ f.convert? v = some (.ok x)

/-- The number of levels that the entry asks for. -/
def numLevelsOf (api : OptionsApi) (entry : Value) : Int :=
  match (OrdMap.find? entry.entries (ascii "options")).bind fun options =>
    OrdMap.find? options.entries (ascii "num_levels") with
  | some v => match v.asInt with
    | .ok n => n
    | .error _ => api.defaults .numLevels
  | none => api.defaults .numLevels

/-- What the tuning calls of `read_config` make of the default options with that number of levels. -/
def tunedDefaults (api : OptionsApi) (entry : Value) : Options :=
  tuned api (api.defaults.set .numLevels (numLevelsOf api entry))

/-- The tuning calls leave the value in force: the field is not one that they set, or they set it to the
value. -/
def Options.Leaves (t : Options) : (f : Field) → f.Type → Prop
  | .compression, x => ∀ c ∈ t .compressionPerLevel, c = x
  | f, x => f ∈ levelStyleFields → t f = x

/-- What an entry gives stays in force: in an entry without families if the tuning calls leave it, in one
with families if it is RocksDB's default anyway. -/
def Kept (api : OptionsApi) (entry : Value) (f : Field) (x : f.Type) : Prop :=
  if (OrdMap.find? entry.entries (ascii "column_family")).isSome then api.defaults.InForce f x
  else (tunedDefaults api entry).Leaves f x

/-- The configuration is the one that `read_config` makes of the entry of the file. -/
def Config.ReadAs (api : OptionsApi) (file : Bytes) (entry : Value) (c : Config) : Prop :=
  ∃ (configs : List Config) (dbs : Value) (i : Nat) (name : Bytes),
    readConfigs api file = .ok (some configs) ∧ dbsOf file = .ok dbs ∧
      dbs.entries[i]? = some (name, entry) ∧ configs[i]? = some c

section

variable {api : OptionsApi} {file : Bytes} {entry : Value} {c : Config}

theorem Config.ReadAs.entryRead (h : c.ReadAs api file entry) :
    entry.WellFormed ∧ EntryRead api entry c ∧ c.Aligned ∧
      ∃ name, c = Config.create name c.path c.options c.cfNames := by
  obtain ⟨configs, dbs, i, name, hread, hdbs, hentry, hc⟩ := h
  obtain ⟨dbs', hdbs', hwf, hm⟩ := readConfigs_eq_ok hread
  cases hdbs.symm.trans hdbs'
  obtain ⟨c', hc', hread'⟩ := getElem?_mapM hm hentry
  cases hc.symm.trans hc'
  have hwf' : entry.WellFormed := hwf.of_mem_entries (List.mem_of_getElem? hentry)
  obtain ⟨hcreate, H⟩ := readConfig_spec hwf' hread'
  exact ⟨hwf', H, (readConfig_start hwf' hread').2, name, hcreate⟩

/-- A configuration has families exactly if its entry has a `column_family` member. -/
theorem Config.ReadAs.isCf (h : c.ReadAs api file entry) :
    c.isCf = (OrdMap.find? entry.entries (ascii "column_family")).isSome := by
  obtain ⟨-, H, -, name, hcreate⟩ := h.entryRead
  have hcf : c.isCf = !c.cfNames.isEmpty := by rw [hcreate]; rfl
  rw [hcf]
  cases hv : OrdMap.find? entry.entries (ascii "column_family") with
  | none => rw [H.noFamilies hv]; rfl
  | some v => rw [readColumnFamilies_eq (H.families v hv)]; rfl

theorem Config.ReadAs.isOpen (h : c.ReadAs api file entry) : c.isOpen = false := by
  obtain ⟨-, -, -, name, hcreate⟩ := h.entryRead
  rw [hcreate]
  rfl

/-- The options of a configuration, in a field that no tuning call sets. -/
theorem Config.ReadAs.options_field (hapi : api.AsDocumented) (h : c.ReadAs api file entry)
    {f : Field} (hf : f ∉ levelStyleFields) {key : Bytes} (hkey : f.key? = some key) :
    match (OrdMap.find? entry.entries (ascii "options")).bind fun options =>
      OrdMap.find? options.entries key with
    | none => c.options f = api.defaults f
    | some v => f.convert? v = some (.ok (c.options f)) := by
  have hjobs : f ≠ .maxBackgroundJobs := by rintro rfl; cases hkey
  obtain ⟨hwf, H, -⟩ := h.entryRead
  cases hoptions : OrdMap.find? entry.entries (ascii "options") with
  | none =>
    show c.options f = api.defaults f
    rw [H.noOptions hoptions]
  | some options =>
    obtain ⟨o, ho, heq⟩ := H.options options hoptions
    have hwf' : options.WellFormed := hwf.of_mem_entries (OrdMap.mem_of_find? hoptions)
    have hfield := optionsFromJson_field hapi hwf' ho hf hkey
    have htuned : c.options f = o f := by
      rw [heq, tuned, hapi.levelStyle _ _ _ hf, hapi.parallelism _ _ _ hjobs]
    rw [Option.bind_some]
    cases hv : OrdMap.find? options.entries key with
    | none =>
      rw [hv] at hfield
      exact htuned.trans hfield
    | some v =>
      rw [hv] at hfield
      rw [htuned]
      exact hfield

theorem Config.ReadAs.options_eq (hapi : api.AsDocumented) (h : c.ReadAs api file entry)
    {f : Field} (hf : f ∉ levelStyleFields) {x : f.Type} (hx : Gives entry f x) :
    c.options f = x := by
  obtain ⟨options, key, v, hoptions, hkey, hv, hconvert⟩ := hx
  have hfield := h.options_field hapi hf hkey
  rw [hoptions, Option.bind_some, hv] at hfield
  exact Except.ok.inj (Option.some.inj (hfield.symm.trans hconvert))

/-- A field whose value is not the default has been given it. -/
theorem Config.ReadAs.gives (hapi : api.AsDocumented) (h : c.ReadAs api file entry)
    {f : Field} (hf : f ∉ levelStyleFields) {key : Bytes} (hkey : f.key? = some key)
    (hne : c.options f ≠ api.defaults f) : Gives entry f (c.options f) := by
  have hfield := h.options_field hapi hf hkey
  cases hoptions : OrdMap.find? entry.entries (ascii "options") with
  | none =>
    rw [hoptions] at hfield
    exact absurd hfield hne
  | some options =>
    rw [hoptions, Option.bind_some] at hfield
    cases hv : OrdMap.find? options.entries key with
    | none =>
      rw [hv] at hfield
      exact absurd hfield hne
    | some v =>
      rw [hv] at hfield
      exact ⟨options, key, v, hoptions, hkey, hv, hfield⟩

/-- The number of levels that the options have before the tuning calls. -/
theorem numLevelsOf_eq (hapi : api.AsDocumented) {options : Value} (hwf : options.WellFormed)
    (hoptions : OrdMap.find? entry.entries (ascii "options") = some options) {o : Options}
    (ho : optionsFromJson api options = .ok o) : numLevelsOf api entry = o .numLevels := by
  have hfield := optionsFromJson_field (f := .numLevels) hapi hwf ho (by decide) rfl
  unfold numLevelsOf
  rw [hoptions, Option.bind_some]
  cases hv : OrdMap.find? options.entries (ascii "num_levels") with
  | none =>
    rw [hv] at hfield
    exact hfield.symm
  | some v =>
    rw [hv] at hfield
    have hint : v.asInt = .ok (o .numLevels) := Option.some.inj hfield
    simp only [hint]

/-- What the tuning calls of `read_config` have set. -/
theorem Config.ReadAs.options_tuned (hapi : api.AsDocumented) (h : c.ReadAs api file entry)
    {options : Value} (hoptions : OrdMap.find? entry.entries (ascii "options") = some options)
    {f : Field} (hf : f ∈ levelStyleFields) : c.options f = tunedDefaults api entry f := by
  obtain ⟨hwf, H, -⟩ := h.entryRead
  obtain ⟨o, ho, heq⟩ := H.options options hoptions
  have hwf' : options.WellFormed := hwf.of_mem_entries (OrdMap.mem_of_find? hoptions)
  rw [heq, tunedDefaults, tuned, tuned]
  by_cases hlevel : f = .compressionPerLevel
  · subst hlevel
    apply hapi.perLevel _ _ _
    rw [hapi.parallelism _ _ _ (by decide), hapi.parallelism _ _ _ (by decide), Options.set_self,
      numLevelsOf_eq hapi hwf' hoptions ho]
  · exact hapi.levelStyle_sets _ _ _ f hf hlevel

/-- The options that `open` passes in the end. -/
def Config.openedWith (api : OptionsApi) (c : Config) : Options :=
  if c.isCf then api.defaults else c.options

theorem Config.ReadAs.inForce_iff_kept (hapi : api.AsDocumented) (h : c.ReadAs api file entry)
    {f : Field} {x : f.Type} (hx : Gives entry f x) :
    (c.openedWith api).InForce f x ↔ Kept api entry f x := by
  unfold Config.openedWith Kept
  rw [h.isCf]
  split
  · rfl
  obtain ⟨options, key, v, hoptions, hkey, -⟩ := id hx
  by_cases hcompression : f = .compression
  · subst hcompression
    have hfield := h.options_eq hapi (by decide) hx
    rw [← hfield, Options.inForce_compression, h.options_tuned hapi hoptions (by decide)]
    rfl
  · have hleaves : (tunedDefaults api entry).Leaves f x ↔
        (f ∈ levelStyleFields → tunedDefaults api entry f = x) := by
      cases f <;> first | exact Iff.rfl | exact absurd rfl hcompression
    rw [Options.inForce_of_ne _ hcompression, hleaves]
    by_cases hf : f ∈ levelStyleFields
    · rw [h.options_tuned hapi hoptions hf]
      exact ⟨fun h _ => h, fun h => h hf⟩
    · exact iff_of_true (h.options_eq hapi hf hx) fun h => absurd h hf

end

/-! ## From the configuration to the database -/

/-- `open` succeeds. -/
def Config.Succeeds (c : Config) (r : Rocks) : Prop :=
  ∃ reply c' r', c.open r = .ok ((reply, c'), r') ∧ c'.isOpen = true

/-- `open` leaves `db` as the database object of the configuration. -/
def Config.OpensAs (c : Config) (r : Rocks) (db : OpenDb) : Prop :=
  ∃ reply c' r' id, c.open r = .ok ((reply, c'), r') ∧ c'.db = .object id ∧ r'.live id = some db

namespace Config

variable {c : Config} {r : Rocks}

theorem succeeds_iff (hclosed : c.isOpen = false) : c.Succeeds r ↔
    r.ServesFor (c.creationCalls r) ∧ r.answers (r.calls + c.creationCalls r) = .serve := by
  obtain ⟨hret, hend⟩ := open_answers c r
  simp only [OpenReturns, Opens, hclosed, Bool.false_eq_true, false_or] at hret hend
  constructor
  · rintro ⟨reply, c', r', h, hopen⟩
    exact ⟨hret.mp ⟨_, h⟩, (hend reply c' r' h).1.mp hopen⟩
  · rintro ⟨hs, hlast⟩
    obtain ⟨⟨⟨reply, c'⟩, r'⟩, h⟩ := hret.mpr hs
    exact ⟨reply, c', r', h, (hend reply c' r' h).1.mpr hlast⟩

/-- Every object that `open` leaves has been opened with the same options. -/
theorem OpensAs.options_eq (hclosed : c.isOpen = false) {db : OpenDb} (h : c.OpensAs r db) :
    db.options = c.openedWith r.api := by
  obtain ⟨reply, c', r', id, h, hdb, hlive⟩ := h
  rcases (open_effect h).outcome with ⟨hopen, -⟩ | ⟨-, -, -, id', -, -, hdb', hlive', -⟩ |
    ⟨-, -, -, hnull, -⟩
  · rw [hclosed] at hopen; cases hopen
  · cases hdb.symm.trans hdb'
    cases hlive.symm.trans hlive'
    rfl
  · rw [hdb] at hnull; cases hnull

theorem Succeeds.opensAs (hclosed : c.isOpen = false) (h : c.Succeeds r) : ∃ db, c.OpensAs r db := by
  obtain ⟨reply, c', r', h, hopen⟩ := h
  obtain ⟨id, ho⟩ := (open_effect h).openOn hclosed hopen
  exact ⟨_, reply, c', r', id, h, ho.db, ho.live⟩

theorem exists_opensAs (hclosed : c.isOpen = false) (api : OptionsApi) :
    ∃ r db, r.api = api ∧ c.OpensAs r db := by
  let r : Rocks := { api, answers := fun _ => .serve, disk := fun _ => none, contents := fun _ _ _ => none }
  have hsucceeds : c.Succeeds r := (succeeds_iff hclosed).mpr ⟨fun _ _ => rfl, rfl⟩
  obtain ⟨db, hdb⟩ := hsucceeds.opensAs hclosed
  exact ⟨r, db, rfl, hdb⟩

/-- RocksDB creates a plain database only if the options that it is passed say so, and on a configuration with
families it refuses exactly the invalid requests. -/
structure Answered (c : Config) (r : Rocks) : Prop where
  plain : c.isCf = false → r.disk c.path = none → ∀ db, c.OpensAs r db →
    db.options .createIfMissing = true
  families : c.isCf = true → c.Honest r

/-- `open` leaves a database at the path on disk: by its only call on a plain configuration, or by one of its
steps on one with families, of which a later one may fail. -/
inductive Creates (c : Config) (r : Rocks) : Prop
  | plain (hplain : c.isCf = false) {reply : Value} {c' : Config} {r' : Rocks}
    (h : c.open r = .ok ((reply, c'), r')) (hdb : r'.hasDatabase c.path = true)
  | families (hcf : c.isCf = true) {before after : List OpenStep} {s : Opening}
    (hsteps : c.openSteps r = before ++ after)
    (hrun : runSteps before { config := c, rocks := r } = .ok s)
    (hdb : s.rocks.hasDatabase c.path = true)

/-- A refused `DB::Open` leaves a directory at most. -/
theorem dbOpen_hasDatabase {options : Options} {path : Bytes} (hpath : r.disk path = none) {r' : Rocks}
    {result : Status × List Handle × DbPtr}
    (h : Rocks.dbOpen options path [kDefaultColumnFamilyName] r = .ok (result, r')) :
    r'.hasDatabase path = true ↔ r.answers r.calls = .serve := by
  unfold Rocks.dbOpen at h
  cases ha : r.answers r.calls with
  | serve =>
    simp only [Rocks.answer, ha] at h
    cases h
    simp [Rocks.hasDatabase, Rocks.newDb, Rocks.addFamilies, hpath]
  | refuse leavesPath =>
    simp only [Rocks.answer, ha] at h
    cases h
    cases leavesPath <;> simp [Rocks.hasDatabase, Rocks.addFamilies, hpath]

/-- A plain database is created if and only if the call is served. -/
theorem creates_plain_iff (hclosed : c.isOpen = false) (hplain : c.isCf = false)
    (hpath : r.disk c.path = none) : c.Creates r ↔ r.answers r.calls = .serve := by
  obtain ⟨status, handles, db, r₁, ho, -⟩ :=
    Rocks.dbOpen_cases c.options c.path [kDefaultColumnFamilyName] r
  have hdatabase := dbOpen_hasDatabase hpath ho
  obtain ⟨reply₁, c₁, hopen⟩ : ∃ reply₁ c₁, c.open r = .ok ((reply₁, c₁), r₁) := by
    unfold Config.open
    rw [if_neg (by simp [hclosed]), if_pos (by simp [hplain])]
    simp only [openPlain, ho, ok_bind, pure_eq_ok]
    split <;> exact ⟨_, _, rfl⟩
  constructor
  · rintro (⟨-, h, hdb⟩ | ⟨hcf⟩)
    · cases hopen.symm.trans h
      exact hdatabase.mp hdb
    · rw [hplain] at hcf; cases hcf
  · exact fun hserve => .plain hplain hopen (hdatabase.mpr hserve)

/-- A plain database is created only with the option. -/
theorem Answered.createIfMissing (ha : c.Answered r) (hclosed : c.isOpen = false) (hplain : c.isCf = false)
    (hpath : r.disk c.path = none) (hcreates : c.Creates r) : c.options .createIfMissing = true := by
  have hserve := (creates_plain_iff hclosed hplain hpath).mp hcreates
  have hcalls : c.creationCalls r = 0 := by simp [creationCalls, hplain]
  have hsucceeds : c.Succeeds r := by
    rw [succeeds_iff hclosed, hcalls]
    exact ⟨fun k hk => absurd hk (Nat.not_lt_zero k), hserve⟩
  obtain ⟨db, hdb⟩ := hsucceeds.opensAs hclosed
  have hoptions := ha.plain hplain hpath db hdb
  rw [hdb.options_eq hclosed, openedWith, hplain] at hoptions
  exact hoptions

/-- With families a database is created whatever the options are. -/
theorem Answered.creates_of_absent (ha : c.Answered r) (hcf : c.isCf = true)
    (hpath : r.disk c.path = none) : c.Creates r := by
  -- the first step is enough
  have hserves := ((ha.families hcf).servesFor_iff hpath (Nat.zero_le _)).mpr List.nodup_nil
  obtain ⟨s, hrun, hc⟩ := runSteps_creation hpath (Nat.zero_le _) hserves
  obtain ⟨fs, hfs, hmem⟩ := hc.disk
  obtain ⟨after, hsteps⟩ := openSteps_eq_createDb hpath
  refine .families hcf hsteps hrun (decide_eq_true ?_)
  rw [hfs, Option.getD_some, hmem]
  exact .inl rfl

/-- A missing family is not tolerated. -/
theorem Answered.not_succeeds_of_missing (ha : c.Answered r) (hclosed : c.isOpen = false)
    (haligned : c.Aligned) {fs : List Bytes} (hpath : r.disk c.path = some fs) {f : Bytes}
    (hf : f ∈ c.cfNames) (hmissing : f ∉ fs) : ¬ c.Succeeds r := by
  have hcf : c.isCf = true := by
    by_contra hplain
    rw [haligned.plain (by simpa using hplain)] at hf
    cases hf
  have hn : c.creationCalls r = 0 := by simp [creationCalls, Rocks.pathExists, hpath]
  rw [succeeds_iff hclosed, hn, Nat.add_zero, (ha.families hcf).answers_existing hpath]
  rw [haligned.families hcf] at hf
  exact fun h => hmissing ((h.2 f).mpr hf)

end Config

/-- What the entry gives a field is in force in every database that `open` opens if and only if it is kept;
`create_if_missing` is heeded except with families, `create_missing_column_families` never. -/
theorem inForce_iff {api : OptionsApi} (hapi : api.AsDocumented) {file : Bytes} {entry : Value}
    {c : Config} (hc : c.ReadAs api file entry) :
    (∀ f x, Gives entry f x →
      ((∀ r db, r.api = api → c.OpensAs r db → db.options.InForce f x) ↔ Kept api entry f x)) ∧
    (∀ r, c.Answered r → r.disk c.path = none →
      ((c.Creates r → Gives entry .createIfMissing true) ↔
        OrdMap.find? entry.entries (ascii "column_family") = none ∨
          Gives entry .createIfMissing true)) ∧
    (∀ r fs f, c.Answered r → r.disk c.path = some fs → f ∈ c.cfNames → f ∉ fs →
      ((Gives entry .createMissingColumnFamilies true → c.Succeeds r) ↔
        ¬ Gives entry .createMissingColumnFamilies true)) := by
  have hclosed := hc.isOpen
  obtain ⟨-, -, haligned, -⟩ := hc.entryRead
  refine ⟨fun f x hx => ?_, fun r ha hpath => ?_, fun r fs f ha hpath hf hmissing => ?_⟩
  · rw [← hc.inForce_iff_kept hapi hx]
    constructor
    · intro h
      obtain ⟨r, db, hr, hdb⟩ := Config.exists_opensAs hclosed api
      rw [← hr, ← hdb.options_eq hclosed]
      exact h r db hr hdb
    · intro h r db hr hdb
      rw [hdb.options_eq hclosed, hr]
      exact h
  · cases hcf : OrdMap.find? entry.entries (ascii "column_family") with
    | none =>
      refine iff_of_true (fun hcreates => ?_) (.inl rfl)
      have hplain : c.isCf = false := by rw [hc.isCf, hcf]; rfl
      have hcreate := ha.createIfMissing hclosed hplain hpath hcreates
      have hgives := hc.gives (f := .createIfMissing) hapi (by decide) rfl
        (by rw [hcreate, hapi.createIfMissing]; decide)
      rwa [hcreate] at hgives
    | some v =>
      have hcf : c.isCf = true := by rw [hc.isCf, hcf]; rfl
      have hcreates := ha.creates_of_absent hcf hpath
      exact ⟨fun h => .inr (h hcreates), fun h _ => h.resolve_left nofun⟩
  · have hnot := ha.not_succeeds_of_missing hclosed haligned hpath hf hmissing
    exact ⟨fun h hg => hnot (h hg), fun h hg => absurd hg h⟩

/-! ## An entry whose options are not all in force -/

theorem rocksdbApi_asDocumented : rocksdbApi.AsDocumented where
  parallelism n o _ hf := Options.set_of_ne o (f := .maxBackgroundJobs) n hf
  pointLookup _ _ _ := rfl
  universalStyle n o f hf := by cases f <;> first | rfl | exact absurd (by decide) hf
  levelStyle n o f hf := by cases f <;> first | rfl | exact absurd (by decide) hf
  levelStyle_sets n o o' f hf hlevel := by
    cases f <;> first | rfl | exact absurd rfl hlevel | exact absurd hf (by decide)
  perLevel n o o' h := by
    have hlevels : ∀ o : Options, rocksdbApi.optimizeLevelStyleCompaction n o .compressionPerLevel =
        (List.range (o .numLevels).toNat).map fun i => if i < 2 then .noCompression else .snappy :=
      fun o => rfl
    rw [hlevels, hlevels, h]
  createIfMissing := rfl
  createMissingColumnFamilies := rfl

/-- `{"dbs":{"a":{"dbname":"p","options":{"max_open_files":5,"max_write_buffer_number":3}}}}`. -/
def optionsFile : Bytes := ascii ("\x7b\"dbs\":\x7b\"a\":\x7b\"dbname\":\"p\",\"options\":" ++
  "\x7b\"max_open_files\":5,\"max_write_buffer_number\":3\x7d\x7d\x7d\x7d")

def optionsEntry : Value := .object [(ascii "dbname", textValue "p"), (ascii "options",
  .object [(ascii "max_open_files", .int 5), (ascii "max_write_buffer_number", .int 3)])]

def optionsConfig : Config := Config.create (ascii "a") (ascii "p")
  (tuned rocksdbApi ((defaultOptions.set .maxOpenFiles 5).set .maxWriteBufferNumber 3)) []

theorem optionsConfig_readAs : optionsConfig.ReadAs rocksdbApi optionsFile optionsEntry := by
  have hparse : Json.parseFromStream optionsFile =
      .ok (.ok (.object [(ascii "dbs", .object [(ascii "a", optionsEntry)])])) :=
    Json.parseFromStream_eq (by decide +kernel)
  refine ⟨[optionsConfig], .object [(ascii "a", optionsEntry)], 0, ascii "a", ?_, ?_, rfl, rfl⟩
  · unfold readConfigs
    rw [hparse]
    rfl
  · unfold dbsOf
    rw [hparse]
    rfl

theorem inForce_max_open_files : ∃ (r : Rocks) (db : OpenDb), r.api = rocksdbApi ∧
    optionsConfig.OpensAs r db ∧ db.options.InForce .maxOpenFiles 5 := by
  obtain ⟨r, db, hr, hdb⟩ := Config.exists_opensAs (c := optionsConfig) rfl rocksdbApi
  refine ⟨r, db, hr, hdb, ?_⟩
  refine ((inForce_iff rocksdbApi_asDocumented optionsConfig_readAs).1 .maxOpenFiles 5
    ⟨_, _, _, rfl, rfl, rfl, rfl⟩).mpr ?_ r db hr hdb
  exact nofun

/-- `max_write_buffer_number` is given as 3, but `OptimizeLevelStyleCompaction` has set it to 6. -/
theorem overruled_max_write_buffer_number : ∃ (file : Bytes) (entry : Value) (c : Config),
    c.ReadAs rocksdbApi file entry ∧ Gives entry .maxWriteBufferNumber 3 ∧
      ∃ (r : Rocks) (db : OpenDb), r.api = rocksdbApi ∧ c.OpensAs r db ∧
        ¬ db.options.InForce .maxWriteBufferNumber 3 := by
  obtain ⟨r, db, hr, hdb⟩ := Config.exists_opensAs (c := optionsConfig) rfl rocksdbApi
  refine ⟨_, _, _, optionsConfig_readAs, ⟨_, _, _, rfl, rfl, rfl, rfl⟩, r, db, hr, hdb, ?_⟩
  rw [hdb.options_eq rfl, Options.inForce_of_ne _ (by decide)]
  show (6 : Int) ≠ 3
  decide

end RocksdbService
