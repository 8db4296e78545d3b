import RocksdbService.Verify.ConfigFile
import RocksdbService.Verify.Instance

/-! # Column families and their handles

However often `open` has been tried and whatever has happened to RocksDB in between, an open
configuration reaches each of its families through the handle of that family
(`getHandle_after_attempts`), so the order and the repetition of names in the config file do not
show. -/

namespace RocksdbService

open Outcome
open Json (Value JString)

/-- A configuration goes through attempts to open it. In between RocksDB may change as it likes, but
the object that the configuration stands on is left alone. -/
inductive Config.Attempts : Config × Rocks → Config × Rocks → Prop
  | refl (p : Config × Rocks) : Attempts p p
  | attempt {p : Config × Rocks} {c c' : Config} {r r' : Rocks} {reply : Value}
    (hp : Attempts p (c, r)) (h : c.open r = .ok ((reply, c'), r')) : Attempts p (c', r')
  | meanwhile {p : Config × Rocks} {c : Config} {r r' : Rocks} (hp : Attempts p (c, r))
    (hapi : r'.api = r.api) (h : ∀ id, c.db = .object id → r'.live id = r.live id) :
    Attempts p (c, r')

namespace Config.Attempts

variable {c₀ c : Config} {r₀ r : Rocks}

theorem settings (h : Attempts (c₀, r₀) (c, r)) : c.settings = c₀.settings := by
  generalize hp : (c, r) = p at h
  induction h generalizing c r with
  | refl => cases hp; rfl
  | attempt _ ho ih => cases hp; exact (open_effect ho).settings.trans (ih rfl)
  | meanwhile _ _ _ ih => cases hp; exact ih rfl

/-- An open configuration stands on a live object with its handles. -/
theorem openOn (h : Attempts (c₀, r₀) (c, r)) (h₀ : c₀.isOpen = false) (ho : c.isOpen = true) :
    ∃ id, c.OpenOn r id := by
  generalize hp : (c, r) = p at h
  induction h generalizing c r with
  | refl => cases hp; rw [h₀] at ho; cases ho
  | @attempt c₁ c₂ r₁ r₂ reply hp' hopen ih =>
    cases hp
    have H := open_effect hopen
    cases h₁ : c₁.isOpen with
    | false => exact H.openOn h₁ ho
    | true =>
      rcases H.outcome with ⟨-, -, rfl, rfl⟩ | ⟨h, -⟩ | ⟨h, -⟩
      · exact ih h₁ rfl
      · rw [h₁] at h; cases h
      · rw [h₁] at h; cases h
  | meanwhile _ hapi hlive ih =>
    cases hp
    obtain ⟨id, hid⟩ := ih ho rfl
    exact ⟨id, hid.of_live hapi (hlive id hid.db)⟩

end Config.Attempts

/-- What the file says about a configuration still holds when attempts have opened it. -/
theorem openOn_of_readFrom {api : OptionsApi} {file : Bytes} {names : List Bytes} {c₀ c : Config}
    {r₀ r : Rocks} (hread : c₀.ReadFrom api file names) (hrun : Config.Attempts (c₀, r₀) (c, r))
    (hopen : c.isOpen = true) :
    ∃ id, c.OpenOn r id ∧ c.Aligned ∧ c.isCf = true ∧ c.path = c₀.path ∧
      ∀ str, str ∈ c.cfNames ↔ str = kDefaultColumnFamilyName ∨ str ∈ names := by
  obtain ⟨hset, ha, hcf, hmem⟩ := hread.families
  obtain ⟨-, hpath, -, hnames, hcf'⟩ := Config.settings_eq_iff.mp hrun.settings
  obtain ⟨id, hid⟩ := hrun.openOn (by rw [hset]; rfl) hopen
  exact ⟨id, hid, ha.of_settings hrun.settings, hcf'.trans hcf, hpath, by rw [hnames]; exact hmem⟩

/-- The names of an open configuration and its handles correspond one to one. -/
theorem Config.OpenOn.handles_getElem? {c : Config} {r : Rocks} {id : Nat} (h : c.OpenOn r id)
    (ha : c.Aligned) (hcf : c.isCf = true) :
    c.handles.length = c.cfNames.length ∧
      ∀ i (hi : i < c.cfNames.length), c.handles[i]? = some ⟨id, c.cfNames[i]⟩ := by
  have hh : c.handles = c.cfNames.map (Handle.mk id) := by rw [h.handles hcf, ← ha.families hcf]
  refine ⟨by rw [hh, List.length_map], fun i hi => ?_⟩
  rw [hh, List.getElem?_map, List.getElem?_eq_getElem hi]
  rfl

/-- Two open configurations at one path with the same families answer alike. -/
theorem Config.OpenOn.cf_congr {c c' : Config} {r r' : Rocks} {id id' : Nat} (h : c.OpenOn r id)
    (h' : c'.OpenOn r' id') (ha : c.Aligned) (ha' : c'.Aligned) (hpath : c'.path = c.path)
    (hmem : ∀ str, str ∈ c'.cfNames ↔ str ∈ c.cfNames) (hserves : r'.serves = r.serves)
    (hcontents : r'.contents = r.contents) (column key : Bytes) (value : JString) :
    Prod.fst <$> c'.getCf column key r' = Prod.fst <$> c.getCf column key r ∧
      (fun p => (p.1, p.2.contents)) <$> c'.putCf column key value.bytes r' =
        (fun p => (p.1, p.2.contents)) <$> c.putCf column key value.bytes r := by
  have hg := runCommand_eq h ha (.getCf column key)
  have hg' := runCommand_eq h' ha' (.getCf column key)
  have hp := runCommand_eq h ha (.putCf column key value)
  have hp' := runCommand_eq h' ha' (.putCf column key value)
  simp only [runCommand] at hg hg' hp hp'
  rw [hg, hg', hp, hp']
  by_cases hc : column ∈ c.cfNames
  · have hread : r'.readAt c.path column key = r.readAt c.path column key := by
      rw [Rocks.readAt, Rocks.readAt, hserves, hcontents]
    simp only [if_pos hc, if_pos ((hmem column).mpr hc), hread, Rocks.writeAt, hserves, hcontents,
      hpath]
    refine ⟨?_, ?_⟩
    · cases r.readAt c.path column key <;> rfl
    · split
      · rfl
      · exact congrArg (fun x => Except.ok (errorReply (-2), x)) hcontents
  · simp only [if_neg hc, if_neg (mt (hmem column).mp hc)]
    exact ⟨rfl, congrArg (fun x => Except.ok (errorReply 7, x)) hcontents⟩

/-- Whatever `column_family` array the file has and however many attempts `open` took, an open
configuration has one handle for each of its names, that of the family of this name, and `get_handle`
finds it. A second process whose file lists the same names in another order or other repetition
reads and writes the same entries. -/
theorem getHandle_after_attempts {api : OptionsApi} {file : Bytes} {names : List Bytes}
    {c₀ c : Config} {r₀ r : Rocks} (hread : c₀.ReadFrom api file names)
    (hrun : Config.Attempts (c₀, r₀) (c, r)) (hopen : c.isOpen = true) :
    (∃ id, c.db = .object id ∧ c.handles.length = c.cfNames.length ∧
      (∀ i (hi : i < c.cfNames.length), c.handles[i]? = some ⟨id, c.cfNames[i]⟩) ∧
      ∀ str, c.getHandle str =
        .ok (if str = kDefaultColumnFamilyName ∨ str ∈ names then some ⟨id, str⟩ else none)) ∧
    ∀ {api' : OptionsApi} {file' : Bytes} {names' : List Bytes} {c₀' c' : Config} {r₀' r' : Rocks},
      c₀'.ReadFrom api' file' names' → (∀ str, str ∈ names' ↔ str ∈ names) →
      c₀'.path = c₀.path → Config.Attempts (c₀', r₀') (c', r') → c'.isOpen = true →
      r'.serves = r.serves → r'.contents = r.contents →
      ∀ (column key : Bytes) (value : JString),
        Prod.fst <$> c'.getCf column key r' = Prod.fst <$> c.getCf column key r ∧
        (fun p => (p.1, p.2.contents)) <$> c'.putCf column key value.bytes r' =
          (fun p => (p.1, p.2.contents)) <$> c.putCf column key value.bytes r := by
  obtain ⟨id, hid, ha, hcf, hpath, hmem⟩ := openOn_of_readFrom hread hrun hopen
  obtain ⟨hlen, hget⟩ := hid.handles_getElem? ha hcf
  refine ⟨⟨id, hid.db, hlen, hget, fun str => ?_⟩, ?_⟩
  · rw [hid.getHandle_eq ha]
    simp only [hmem]
  · intro api' file' names' c₀' c' r₀' r' hread' hsame hpath₀ hrun' hopen' hserves hcontents
    obtain ⟨id', hid', ha', -, hpath', hmem'⟩ := openOn_of_readFrom hread' hrun' hopen'
    refine hid.cf_congr hid' ha ha' ((hpath'.trans hpath₀).trans hpath.symm) (fun str => ?_)
      hserves hcontents
    rw [hmem', hmem, hsame]

/-- A config file with one database and the families `x`, `default` and `x` again. -/
def familiesFile : Bytes :=
  ascii "\x7b\"dbs\":\x7b\"a\":\x7b\"column_family\":[\"x\",\"default\",\"x\"],\"dbname\":\"p\"\x7d\x7d\x7d"

/-- Its entry for the database. -/
def familiesEntry : Value :=
  .object [(ascii "column_family", .array [textValue "x", textValue "default", textValue "x"]),
    (ascii "dbname", textValue "p")]

def familiesConfig : Config :=
  Config.create (ascii "a") (ascii "p") defaultOptions [ascii "default", ascii "x", ascii "x"]

theorem familiesConfig_readFrom :
    familiesConfig.ReadFrom rocksdbApi familiesFile [ascii "x", ascii "default", ascii "x"] := by
  have hparse : Json.parseFromStream familiesFile =
      .ok (.ok (.object [(ascii "dbs", .object [(ascii "a", familiesEntry)])])) :=
    Json.parseFromStream_eq (by decide +kernel)
  refine ⟨[familiesConfig], .object [(ascii "a", familiesEntry)], 0, ascii "a", familiesEntry, _,
    ?_, rfl, ?_, rfl, rfl, rfl⟩
  · unfold readConfigs
    rw [hparse]
    rfl
  · unfold dbsOf
    rw [hparse]
    rfl

/-- A RocksDB that refuses the first call; the path exists. -/
def refusingRocks : Rocks :=
  { emptyRocks with
    answers := fun i => if i = 0 then .refuse false else .serve
    disk := fun _ => some [] }

theorem getHandle_after_refused_attempt :
    ∃ (c : Config) (r : Rocks), Config.Attempts (familiesConfig, refusingRocks) (c, r) ∧
      c.getHandle (ascii "x") = .ok (some ⟨0, ascii "x"⟩) ∧ c.getHandle (ascii "y") = .ok none := by
  have hrun := ((Config.Attempts.refl (familiesConfig, refusingRocks)).attempt rfl).attempt rfl
  obtain ⟨⟨id, hdb, -, -, hget⟩, -⟩ := getHandle_after_attempts familiesConfig_readFrom hrun rfl
  cases hdb
  exact ⟨_, _, hrun, hget _, hget _⟩

end RocksdbService
