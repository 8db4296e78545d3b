import Mathlib.Data.List.Nodup
import RocksdbService.Verify.Exec

/-! # What the config file says

`read_config` goes through the members of an entry in order; since a name occurs once, each of the
three things it reads comes from one member (`readConfig_spec`). The configurations of a file are
therefore ones in which `open` and `get_handle` agree on the families (`readConfigs_start`). -/

namespace RocksdbService

open Outcome
open Json (Value)

theorem Json.Value.WellFormed.entries_nodup {v : Value} (h : v.WellFormed) :
    (v.entries.map Prod.fst).Nodup := by
  cases h with
  | object hs _ => exact List.pairwise_map.mpr (hs.imp ne_of_lt)
  | @array xs _ =>
    have hkeys : (Value.array xs).entries.map Prod.fst =
        (List.range xs.length).map Json.uintToString := by
      refine List.ext_getElem (by simp [Value.entries]) fun i h _ => ?_
      simp [Value.entries]
    rw [hkeys]
    exact List.Nodup.map Json.uintToString_injective List.nodup_range
  | _ => exact List.nodup_nil

theorem Json.Value.WellFormed.of_mem_entries {v : Value} (h : v.WellFormed) {p : Bytes × Value}
    (hp : p ∈ v.entries) : p.2.WellFormed := by
  cases h with
  | object _ h => exact h p hp
  | array h =>
    obtain ⟨i, hi, rfl⟩ := List.exists_of_mem_mapIdx hp
    exact h _ (List.getElem_mem hi)
  | _ => cases hp

/-- What `read_config` makes of the options of an entry. -/
def tuned (api : OptionsApi) (options : Options) : Options :=
  api.optimizeLevelStyleCompaction api.memtableMemoryBudget
    (api.increaseParallelism api.totalThreads options)

/-- What one turn of the loop of `read_config` does. -/
theorem readConfigStep_cases {api : OptionsApi} {s s' : ReadConfig} {k : Bytes} {v : Value}
    (h : readConfigStep api s (k, v) = .ok s') :
    (k = ascii "column_family" ∧ ∃ names, readColumnFamilies v = .ok names ∧
      s' = { s with cf := s.cf ++ names }) ∨
    (k = ascii "dbname" ∧ ∃ path, v.asString = .ok path ∧ s' = { s with path }) ∨
    (k = ascii "options" ∧ ∃ options, optionsFromJson api v = .ok options ∧
      s' = { s with options := tuned api options }) ∨
    (k ≠ ascii "column_family" ∧ k ≠ ascii "dbname" ∧ k ≠ ascii "options" ∧ s' = s) := by
  unfold readConfigStep at h
  dsimp only at h
  split at h
  · next hk =>
    obtain ⟨names, hn, h⟩ := bind_eq_ok.mp h
    cases h
    exact .inl ⟨hk, names, hn, rfl⟩
  split at h
  · next hk =>
    obtain ⟨path, hp, h⟩ := bind_eq_ok.mp h
    cases h
    exact .inr (.inl ⟨hk, path, hp, rfl⟩)
  split at h
  · next hk =>
    obtain ⟨options, ho, h⟩ := bind_eq_ok.mp h
    cases h
    exact .inr (.inr (.inl ⟨hk, options, ho, rfl⟩))
  · next h₁ h₂ h₃ =>
    cases h
    exact .inr (.inr (.inr ⟨h₁, h₂, h₃, rfl⟩))

/-- What `read_config` has read from the entry `root`. -/
structure EntryRead (api : OptionsApi) (root : Value) (c : Config) : Prop where
  families : ∀ v, OrdMap.find? root.entries (ascii "column_family") = some v →
    readColumnFamilies v = .ok c.cfNames
  noFamilies : OrdMap.find? root.entries (ascii "column_family") = none → c.cfNames = []
  path : ∀ v, OrdMap.find? root.entries (ascii "dbname") = some v → v.asString = .ok c.path
  options : ∀ v, OrdMap.find? root.entries (ascii "options") = some v →
    ∃ options, optionsFromJson api v = .ok options ∧ c.options = tuned api options
  noOptions : OrdMap.find? root.entries (ascii "options") = none → c.options = api.defaults

theorem readConfig_spec {api : OptionsApi} {name : Bytes} {root : Value} (hwf : root.WellFormed)
    {c : Config} (h : readConfig api name root = .ok c) :
    c = Config.create name c.path c.options c.cfNames ∧ EntryRead api root c := by
  obtain ⟨s, hs, h⟩ := bind_eq_ok.mp h
  cases h
  have hnodup := hwf.entries_nodup
  have hcf := OrdMap.foldlM_part ReadConfig.cf (ascii "column_family")
    (fun v cf cf' => ∃ names, readColumnFamilies v = .ok names ∧ cf' = cf ++ names)
    (fun {s p s'} hne h => by
      rcases readConfigStep_cases h with ⟨hk, -⟩ | ⟨-, _, -, rfl⟩ | ⟨-, _, -, rfl⟩ | ⟨-, -, -, rfl⟩
      · exact absurd hk hne
      all_goals rfl)
    (fun {s v s'} h => by
      rcases readConfigStep_cases h with ⟨-, names, hn, rfl⟩ | ⟨hk, -⟩ | ⟨hk, -⟩ | ⟨hk, -⟩
      · exact ⟨names, hn, rfl⟩
      · exact absurd hk (by decide)
      · exact absurd hk (by decide)
      · exact absurd rfl hk) hnodup hs
  have hpath := OrdMap.foldlM_part ReadConfig.path (ascii "dbname")
    (fun v _ path' => v.asString = .ok path')
    (fun {s p s'} hne h => by
      rcases readConfigStep_cases h with ⟨-, _, -, rfl⟩ | ⟨hk, -⟩ | ⟨-, _, -, rfl⟩ | ⟨-, -, -, rfl⟩
      · rfl
      · exact absurd hk hne
      all_goals rfl)
    (fun {s v s'} h => by
      rcases readConfigStep_cases h with ⟨hk, -⟩ | ⟨-, path, hp, rfl⟩ | ⟨hk, -⟩ | ⟨-, hk, -⟩
      · exact absurd hk (by decide)
      · exact hp
      · exact absurd hk (by decide)
      · exact absurd rfl hk) hnodup hs
  have hoptions := OrdMap.foldlM_part ReadConfig.options (ascii "options")
    (fun v _ options' => ∃ options, optionsFromJson api v = .ok options ∧
      options' = tuned api options)
    (fun {s p s'} hne h => by
      rcases readConfigStep_cases h with ⟨-, _, -, rfl⟩ | ⟨-, _, -, rfl⟩ | ⟨hk, -⟩ | ⟨-, -, -, rfl⟩
      · rfl
      · rfl
      · exact absurd hk hne
      · rfl)
    (fun {s v s'} h => by
      rcases readConfigStep_cases h with ⟨hk, -⟩ | ⟨hk, -⟩ | ⟨-, options, ho, rfl⟩ | ⟨-, -, hk, -⟩
      · exact absurd hk (by decide)
      · exact absurd hk (by decide)
      · exact ⟨options, ho, rfl⟩
      · exact absurd rfl hk) hnodup hs
  refine ⟨rfl, fun v hv => ?_, fun hv => ?_, fun v hv => ?_, fun v hv => ?_, fun hv => ?_⟩
  · rw [hv] at hcf
    obtain ⟨names, hn, heq⟩ := hcf
    rw [hn]
    exact congrArg Except.ok heq.symm
  · rw [hv] at hcf
    exact hcf
  · rw [hv] at hpath
    exact hpath
  · rw [hv] at hoptions
    exact hoptions
  · rw [hv] at hoptions
    exact hoptions

/-- The families that `read_config` lists are the descriptors that `open` builds. -/
theorem readColumnFamilies_eq {v : Value} {names : List Bytes}
    (h : readColumnFamilies v = .ok names) :
    names = kDefaultColumnFamilyName :: names.filter (· ≠ kDefaultColumnFamilyName) := by
  obtain ⟨ns, -, h⟩ := bind_eq_ok.mp h
  cases h
  simp

theorem Config.create_aligned {name path : Bytes} {options : Options} {cfNames : List Bytes}
    (h : cfNames = [] ∨
      cfNames = kDefaultColumnFamilyName :: cfNames.filter (· ≠ kDefaultColumnFamilyName)) :
    (Config.create name path options cfNames).Aligned := by
  rcases h with rfl | h
  · exact ⟨fun _ => rfl, nofun⟩
  · refine ⟨fun hcf => ?_, fun _ => h⟩
    rw [h] at hcf
    cases hcf

theorem readConfig_start {api : OptionsApi} {name : Bytes} {root : Value} (hwf : root.WellFormed)
    {c : Config} (h : readConfig api name root = .ok c) : c = c.settings ∧ c.Aligned := by
  obtain ⟨hc, H⟩ := readConfig_spec hwf h
  constructor
  · rw [hc]; rfl
  · rw [hc]
    apply Config.create_aligned
    cases hv : OrdMap.find? root.entries (ascii "column_family") with
    | none => exact .inl (H.noFamilies hv)
    | some v => exact .inr (readColumnFamilies_eq (H.families v hv))

/-- The value of `dbs` in the config file. -/
def dbsOf (file : Bytes) : Outcome Value := do
  match ← Json.parseFromStream file with
  | .error _ => return .null
  | .ok root => return root.member (ascii "dbs")

/-- Every member of `dbs` becomes a configuration, in order. -/
theorem readConfigs_eq_ok {api : OptionsApi} {file : Bytes} {configs : List Config}
    (h : readConfigs api file = .ok (some configs)) :
    ∃ dbs, dbsOf file = .ok dbs ∧ dbs.WellFormed ∧
      dbs.entries.mapM (fun p => readConfig api p.1 p.2) = .ok configs := by
  obtain ⟨parsed, hp, h⟩ := bind_eq_ok.mp h
  cases parsed with
  | error _ => cases h
  | ok root0 =>
    obtain ⟨⟨root, root'⟩, hr, h⟩ := bind_eq_ok.mp h
    obtain ⟨configs', hm, h⟩ := bind_eq_ok.mp h
    cases h
    have hobj : root0.isObjectLike = true := by
      by_contra hobj
      rw [Json.Value.resolveReference_error hobj] at hr
      cases hr
    obtain ⟨ms, heq, -⟩ := Json.Value.resolveReference_eq hobj (ascii "dbs")
    cases heq.symm.trans hr
    refine ⟨_, ?_, (Json.parseFromStream_wellFormed hp).member (ascii "dbs"), hm⟩
    simp [dbsOf, hp]

theorem readConfigs_start {api : OptionsApi} {file : Bytes} {configs : List Config}
    (h : readConfigs api file = .ok (some configs)) : ∀ c ∈ configs, c = c.settings ∧ c.Aligned := by
  obtain ⟨dbs, -, hwf, hm⟩ := readConfigs_eq_ok h
  intro c hc
  obtain ⟨p, hp, hread⟩ := mem_of_mapM hm hc
  exact readConfig_start (hwf.of_mem_entries hp) hread

/-! ## Configured families -/

/-- A configuration as the file describes it, with a `column_family` array of the names `names`. -/
def Config.ReadFrom (api : OptionsApi) (file : Bytes) (names : List Bytes) (c : Config) : Prop :=
  ∃ (configs : List Config) (dbs : Value) (i : Nat) (name : Bytes) (entry : Value)
    (xs : List Value), readConfigs api file = .ok (some configs) ∧
    configs[i]? = some c ∧ dbsOf file = .ok dbs ∧ dbs.entries[i]? = some (name, entry) ∧
    entry.member (ascii "column_family") = .array xs ∧ xs.mapM Value.asString = .ok names

theorem readColumnFamilies_array (xs : List Value) :
    readColumnFamilies (.array xs) =
      (do return kDefaultColumnFamilyName ::
        (← xs.mapM Value.asString).filter (· ≠ kDefaultColumnFamilyName)) := by
  have hxs : xs = (List.range xs.length).map fun i => xs.getD i .null :=
    List.ext_getElem (by simp) fun i h _ => by simp [List.getElem?_eq_getElem h]
  have hmap : xs.mapM Value.asString =
      (List.range xs.length).mapM fun i => (xs.getD i .null).asString := by
    conv_lhs => rw [hxs]
    rw [List.mapM_map]
    rfl
  rw [hmap]
  rfl

/-- The first of the families is the default one, the others are as in the file. -/
theorem Config.ReadFrom.families {api : OptionsApi} {file : Bytes} {names : List Bytes} {c : Config}
    (h : c.ReadFrom api file names) :
    c = c.settings ∧ c.Aligned ∧ c.isCf = true ∧
      ∀ str, str ∈ c.cfNames ↔ str = kDefaultColumnFamilyName ∨ str ∈ names := by
  obtain ⟨configs, dbs, i, name, entry, xs, hread, hc, hdbs, hentry, hcf, hnames⟩ := h
  obtain ⟨hset, haligned⟩ := readConfigs_start hread c (List.mem_of_getElem? hc)
  obtain ⟨dbs', hdbs', hwf, hm⟩ := readConfigs_eq_ok hread
  cases hdbs.symm.trans hdbs'
  obtain ⟨c', hc', hread'⟩ := getElem?_mapM hm hentry
  cases hc.symm.trans hc'
  have hwf' : entry.WellFormed := hwf.of_mem_entries (List.mem_of_getElem? hentry)
  obtain ⟨hcreate, H⟩ := readConfig_spec hwf' hread'
  have hfind : OrdMap.find? entry.entries (ascii "column_family") = some (.array xs) := by
    cases entry with
    | object ms =>
      rw [Value.member] at hcf
      cases hv : OrdMap.find? ms (ascii "column_family") with
      | none => rw [hv] at hcf; cases hcf
      | some v => rw [hv] at hcf; cases hcf; exact hv
    | _ => cases hcf
  have hfam := H.families _ hfind
  rw [readColumnFamilies_array, hnames] at hfam
  have hfam : kDefaultColumnFamilyName :: names.filter (· ≠ kDefaultColumnFamilyName) = c.cfNames :=
    Except.ok.inj hfam
  refine ⟨hset, haligned, ?_, fun str => ?_⟩
  · rw [hcreate, Config.create, ← hfam]
    rfl
  · rw [← hfam, List.mem_cons, List.mem_filter]
    by_cases hd : str = kDefaultColumnFamilyName <;> simp [hd]

end RocksdbService
