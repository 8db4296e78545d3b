import RocksdbService.Verify.Replies

/-! # The service as a family of maps

`Spec` is what the service is for: a map from keys to values for each column family of each named
database, changed and read by the operations. Its values are those that a JSON reply can hold.
`execReply_step` matches one request of the service with one step of `Spec`, and
`execReply_refines` a whole run. What RocksDB answers is an input of the abstract machine
(`Spec.Env`), taken from the answers that are due when the request comes (`World.env`). -/

namespace RocksdbService

open Outcome
open Json (Value JString)

namespace Spec

/-- A request whose fields are all there. -/
inductive Query
  | rejected
  | named (dbName : Bytes) (command : Command)

/-- How RocksDB answers a request: whether the database is open when the operation is due, and
whether the call of the operation is served. -/
structure Env where
  opened : Bool
  served : Bool

/-- The values under (database, column family, key). -/
abbrev State := Families Bytes Bytes Bytes JString

/-- The families of the database with a name, none if there is no such database. -/
abbrev Catalog := Bytes → Option (List Bytes)

def readReply : Option JString → Value
  | some v => .object [(ascii "error", .int 0), (ascii "value", .string v)]
  | none => errorReply (-2)

/-- An operation on an open database. -/
def operate (dbName : Bytes) (families : List Bytes) (served : Bool) (s : State) :
    Command → Value × State
  | .put key value =>
    if served then (errorReply 0, s.put dbName kDefaultColumnFamilyName key value)
    else (errorReply (-2), s)
  | .writeBatch items =>
    if served then (errorReply 0, s.putAll dbName kDefaultColumnFamilyName items)
    else (errorReply (-2), s)
  | .putCf column key value =>
    if column ∉ families then (errorReply 7, s)
    else if served then (errorReply 0, s.put dbName column key value)
    else (errorReply (-2), s)
  | .get key =>
    (if served then readReply (s dbName kDefaultColumnFamilyName key) else errorReply (-2), s)
  | .getCf column key =>
    if column ∉ families then (errorReply 7, s)
    else (if served then readReply (s dbName column key) else errorReply (-2), s)
  | .unknown => (errorReply 7, s)

/-- One request. -/
def step (catalog : Catalog) : Query × Env → State → Value × State
  | (.rejected, _), s => (errorReply 1, s)
  | (.named dbName command, env), s =>
    if dbName = [] then (errorReply 6, s)
    else
      match catalog dbName with
      | none => (errorReply 3, s)
      | some families =>
        if env.opened then operate dbName families env.served s command else (errorReply 4, s)

/-- The request of the service that a query is. -/
def Query.request : Query → Request
  | .rejected => .rejected
  | .named dbName command => .named dbName (.ok command)

end Spec

/-! ## The two states -/

/-- The first configuration with a name, as the file has it. -/
def lookup (configs : List Config) (name : Bytes) : Option Config :=
  (configs.find? (·.name = name)).map Config.settings

def catalogOf (configs : List Config) : Spec.Catalog := fun name =>
  (lookup configs name).map Config.cfNames

/-- The database `name` is kept at `path`. -/
def Place (configs : List Config) (name path : Bytes) : Prop :=
  ∃ c, lookup configs name = some c ∧ c.path = path

/-- The abstract state for given contents. -/
def storeOf (configs : List Config) (contents : Contents) : Spec.State := fun name family key => do
  let c ← lookup configs name
  let v ← contents c.path family key
  if h : v.length ≤ Json.maxStringLength then some ⟨v, h⟩ else none

theorem lookup_eq_find? (configs : List Config) (name : Bytes) :
    lookup configs name = (configs.map Config.settings).find? (·.name = name) := by
  rw [List.find?_map]; rfl

theorem lookup_congr {configs configs' : List Config}
    (h : configs'.map Config.settings = configs.map Config.settings) :
    lookup configs' = lookup configs := by
  funext name
  rw [lookup_eq_find?, lookup_eq_find?, h]

theorem World.find?_configs (w : World) (name : Bytes) :
    w.configs.find? (·.name = name) = (w.find? name).map Prod.snd := by
  unfold World.find?
  cases hi : w.configs.findIdx? (·.name = name) with
  | none =>
    rw [List.find?_eq_none.mpr]
    · rfl
    · intro c hc
      simpa using List.findIdx?_eq_none_iff.mp hi c hc
  | some i =>
    obtain ⟨hlt, hname, hbefore⟩ := List.findIdx?_eq_some_iff_getElem.mp hi
    have hfind : w.configs.find? (·.name = name) = some w.configs[i] :=
      List.find?_eq_some_iff_getElem.mpr ⟨hname, i, hlt, rfl, fun j hj => by simpa using hbefore j hj⟩
    simp [hfind, List.getElem?_eq_getElem hlt]

theorem World.lookup_configs (w : World) (name : Bytes) :
    lookup w.configs name = (w.find? name).map fun p => p.2.settings := by
  rw [lookup, w.find?_configs, Option.map_map]
  rfl

theorem lookup_mem {configs : List Config} {name : Bytes} {c : Config}
    (h : lookup configs name = some c) : ∃ c' ∈ configs, c'.name = name ∧ c'.settings = c := by
  obtain ⟨c', hc', rfl⟩ := Option.map_eq_some_iff.mp h
  exact ⟨c', List.mem_of_find?_eq_some hc', by simpa using List.find?_some hc', rfl⟩

/-- Different paths make databases and paths correspond one to one. -/
theorem place_biUnique {configs : List Config} (h : (configs.map Config.path).Nodup) :
    Relator.BiUnique (Place configs) := by
  constructor
  · rintro name name' path ⟨c, hc, hp⟩ ⟨c', hc', hp'⟩
    obtain ⟨d, hd, hn, rfl⟩ := lookup_mem hc
    obtain ⟨d', hd', hn', rfl⟩ := lookup_mem hc'
    have heq : d = d' := List.inj_on_of_nodup_map h hd hd' (hp.trans hp'.symm)
    rw [← hn, ← hn', heq]
  · rintro name path path' ⟨c, hc, hp⟩ ⟨c', hc', hp'⟩
    cases hc.symm.trans hc'
    exact hp.symm.trans hp'

theorem storeOf_represents {configs : List Config} {contents : Contents}
    (h : ∀ path family key v, contents path family key = some v → v.length ≤ Json.maxStringLength) :
    Families.Represents (Place configs) JString.bytes (storeOf configs contents) contents := by
  rintro name path ⟨c, hc, rfl⟩ family key
  simp only [storeOf, hc, Option.bind_eq_bind, Option.bind_some]
  cases hv : contents c.path family key with
  | none => rfl
  | some v => simp [h _ _ _ _ hv]

/-! ## Replies -/

theorem readAt_represents {r : Rocks} {path family key : Bytes} {v : Option JString}
    (h : r.contents path family key = v.map JString.bytes) :
    r.readAt path family key =
      .ok (if r.serves then Spec.readReply v else errorReply (-2)) := by
  unfold Rocks.readAt
  rw [h]
  cases r.serves with
  | false => rfl
  | true =>
    cases v with
    | none => rfl
    | some v =>
      simp only [Option.map_some, valueReply, Json.Value.ofString_eq_ok v.fits]
      rfl

section
variable {places : Bytes → Bytes → Prop} {r : Rocks} {s : Spec.State}

theorem writeAt_represents (hs : Families.Represents places JString.bytes s r.contents)
    {s' : Spec.State} {contents : Contents}
    (hs' : Families.Represents places JString.bytes s' contents) {path : Bytes}
    (hother : ∀ p, p ≠ path → contents p = r.contents p) :
    ∃ r', r.writeAt contents =
        ((if r.serves then (errorReply 0, s') else (errorReply (-2), s)).1, r') ∧
      Families.Represents places JString.bytes
        (if r.serves then (errorReply 0, s') else (errorReply (-2), s)).2 r'.contents ∧
      ∀ p, p ≠ path → r'.contents p = r.contents p := by
  unfold Rocks.writeAt
  cases r.serves with
  | true => exact ⟨_, rfl, hs', hother⟩
  | false => exact ⟨_, rfl, hs, fun _ _ => rfl⟩

theorem put_other {n : Contents} {path : Bytes} (family key value : Bytes) (p : Bytes)
    (h : p ≠ path) : n.put path family key value p = n p := by
  funext f k
  exact Families.put_of_ne fun h' => h h'.1

theorem putAll_other {n : Contents} {path : Bytes} (family : Bytes) (kvs : List (Bytes × Bytes))
    (p : Bytes) (h : p ≠ path) : n.putAll path family kvs p = n p := by
  funext f k
  exact Families.putAll_of_forall_ne fun _ _ h' => h h'.1

/-- An operation of the service and the abstract one have the same reply and keep the stores
together. -/
theorem runCommand_operate (hp : Relator.BiUnique places) {c : Config} {id : Nat}
    (h : c.OpenOn r id) (ha : c.Aligned)
    (hs : Families.Represents places JString.bytes s r.contents) {name : Bytes}
    (hname : places name c.path) (command : Command) :
    ∃ r', runCommand c command r =
        .ok ((Spec.operate name c.cfNames r.serves s command).1, r') ∧
      Families.Represents places JString.bytes (Spec.operate name c.cfNames r.serves s command).2
        r'.contents ∧
      ∀ path, path ≠ c.path → r'.contents path = r.contents path := by
  rw [runCommand_eq h ha]
  have hget : ∀ family key,
      r.readAt c.path family key =
        .ok (if r.serves then Spec.readReply (s name family key) else errorReply (-2)) :=
    fun family key => readAt_represents (hs name c.path hname family key)
  cases command with
  | put key value =>
    obtain ⟨r', hr', hs', ho⟩ := writeAt_represents hs
      (hs.put hp hname kDefaultColumnFamilyName key value)
      (put_other kDefaultColumnFamilyName key value.bytes)
    exact ⟨r', congrArg Except.ok hr', hs', ho⟩
  | putCf column key value =>
    by_cases hc : column ∈ c.cfNames
    · obtain ⟨r', hr', hs', ho⟩ := writeAt_represents hs (hs.put hp hname column key value)
        (put_other column key value.bytes)
      simp only [Spec.operate, hc, if_true, not_true, if_false]
      exact ⟨r', congrArg Except.ok hr', hs', ho⟩
    · simp only [Spec.operate, hc, if_false, not_false_eq_true, if_true]
      exact ⟨r, rfl, hs, fun _ _ => rfl⟩
  | writeBatch items =>
    obtain ⟨r', hr', hs', ho⟩ := writeAt_represents hs
      (hs.putAll hp hname kDefaultColumnFamilyName items)
      (putAll_other kDefaultColumnFamilyName (batchBytes items))
    exact ⟨r', congrArg Except.ok hr', hs', ho⟩
  | get key =>
    simp only [hget, Spec.operate]
    exact ⟨r.tick, rfl, hs, fun _ _ => rfl⟩
  | getCf column key =>
    by_cases hc : column ∈ c.cfNames
    · simp only [hget, Spec.operate, hc, if_true, not_true, if_false]
      exact ⟨r.tick, rfl, hs, fun _ _ => rfl⟩
    · simp only [Spec.operate, hc, if_false, not_false_eq_true, if_true]
      exact ⟨r, rfl, hs, fun _ _ => rfl⟩
  | unknown => exact ⟨r, rfl, hs, fun _ _ => rfl⟩

end

/-! ## Requests -/

namespace World

/-- The configuration that a request for the database `name` comes to. -/
def target (w : World) (name : Bytes) : Option Config :=
  if name = [] then none else (w.find? name).map Prod.snd

theorem target_eq {w : World} {name : Bytes} (hname : name ≠ []) {i : Nat} {c : Config}
    (hfind : w.find? name = some (i, c)) : w.target name = some c := by
  rw [target, if_neg hname, hfind, Option.map_some]

/-- How RocksDB is about to answer the calls that a request makes. A request that comes to no database
is refused nothing. -/
def env (w : World) : Spec.Query → Spec.Env
  | .rejected => ⟨true, true⟩
  | .named dbName _ =>
    match w.target dbName with
    | none => ⟨true, true⟩
    | some c => ⟨c.Opens w.rocks, w.serves c⟩

theorem env_eq {w : World} {name : Bytes} {c : Config} (h : w.target name = some c)
    (command : Command) : w.env (.named name command) = ⟨c.Opens w.rocks, w.serves c⟩ := by
  simp only [env, h]

/-- RocksDB is about to refuse a call by which `open` creates the database of a request. -/
def Aborts (w : World) : Spec.Query → Prop
  | .rejected => False
  | .named dbName _ => ∃ c, w.target dbName = some c ∧ ¬ c.OpenReturns w.rocks

end World

/-- `exec_json` up to the reply, with how RocksDB answers. -/
def observe (q : Bytes × Spec.Query) (w : World) : Outcome ((Value × Spec.Env) × World) := do
  let (reply, w') ← execReply q.1 w
  return ((reply, w.env q.2), w')

/-- RocksDB serves every call. -/
structure World.Served (w : World) : Prop where
  inv : w.Inv
  serves : ∀ n, w.rocks.answers n = .serve

theorem World.env_of_serves {w : World} (h : ∀ n, w.rocks.answers n = .serve) (q : Spec.Query) :
    w.env q = ⟨true, true⟩ := by
  cases q with
  | rejected => rfl
  | named name command =>
    cases hc : w.target name with
    | none => simp only [env, hc]
    | some c =>
      have hopens : c.Opens w.rocks := .inr (h _)
      simp only [env_eq hc, hopens, World.serves, h, decide_true]

theorem World.Served.not_aborts {w : World} (hw : w.Served) (q : Spec.Query) : ¬ w.Aborts q := by
  cases q with
  | rejected => exact id
  | named name command =>
    rintro ⟨c, -, hnot⟩
    exact hnot (.inr fun k _ => hw.serves _)

theorem World.Served.run {w w' : World} (hw : w.Served) {qs : List (Bytes × Spec.Query)}
    {os : List (Value × Spec.Env)} (h : RocksdbService.run observe qs w = .ok (os, w')) :
    w'.Served ∧ ∀ o ∈ os, o.2 = ⟨true, true⟩ := by
  refine run_outputs (I := World.Served) (A := fun _ => True) (fun {q w o w'} _ hw h => ?_)
    (fun _ _ => trivial) hw h
  obtain ⟨⟨reply, w₁⟩, h₁, h⟩ := bind_eq_ok.mp h
  cases h
  obtain ⟨hinv, hsame⟩ := hw.inv.execReply h₁
  exact ⟨⟨hinv, fun n => by rw [hsame.answers, hw.serves]⟩, World.env_of_serves hw.serves q.2⟩

/-- The service in state `w` and the abstract machine in state `s`, since the process has started
with `configs` and `contents`. -/
structure Simulates (configs : List Config) (contents : Contents) (w : World) (s : Spec.State) :
    Prop where
  inv : w.Inv
  settings : w.configs.map Config.settings = configs.map Config.settings
  stores : Families.Represents (Place configs) JString.bytes s w.rocks.contents
  others : ∀ path, (∀ name, ¬ Place configs name path) → w.rocks.contents path = contents path

section
variable {configs : List Config} {contents : Contents} {w w' : World} {s : Spec.State}

theorem Simulates.lookup (R : Simulates configs contents w s) (name : Bytes) :
    lookup configs name = (w.find? name).map fun p => p.2.settings := by
  rw [← lookup_congr R.settings, w.lookup_configs]

theorem Simulates.catalog (R : Simulates configs contents w s) {name : Bytes} {i : Nat}
    {item : Config} (h : w.find? name = some (i, item)) :
    catalogOf configs name = some item.cfNames ∧ Place configs name item.path := by
  have hl := R.lookup name
  rw [h] at hl
  exact ⟨by rw [catalogOf, hl]; rfl, _, hl, rfl⟩

/-- Once its database is open, the operation of a request is the abstract one. -/
theorem command_step (hp : Relator.BiUnique (Place configs)) (R : Simulates configs contents w s)
    {name : Bytes} {i : Nat} {item item' : Config} (hfind : w.find? name = some (i, item))
    {reply : Value} {rocks : Rocks} (ho : item.open w.rocks = .ok ((reply, item'), rocks))
    (hopen : item'.isOpen = true) (command : Command) :
    ∃ r', runCommand item' command rocks =
        .ok ((Spec.operate name item.cfNames (w.serves item) s command).1, r') ∧
      Families.Represents (Place configs) JString.bytes
        (Spec.operate name item.cfNames (w.serves item) s command).2 r'.contents ∧
      ∀ path, (∀ name, ¬ Place configs name path) → r'.contents path = contents path := by
  obtain ⟨-, hplace⟩ := R.catalog hfind
  obtain ⟨hi, -, -⟩ := World.find?_eq_some hfind
  have H := Config.open_effect ho
  have hw₁ := R.inv.open hi ho
  have hseti : (w.configs.set i item')[i]? = some item' :=
    List.getElem?_set_self (List.getElem?_eq_some_iff.mp hi).1
  obtain ⟨-, hpath, -, hnames, -⟩ := Config.settings_eq_iff.mp H.settings
  obtain ⟨id, hid⟩ := hw₁.opened hseti hopen
  have hstores : Families.Represents (Place configs) JString.bytes s rocks.contents := by
    rw [H.data.contents]; exact R.stores
  have hserves : rocks.serves = w.serves item := by
    simp only [Rocks.serves, World.serves, H.data.answers,
      ((Config.open_answers item w.rocks).2 _ _ _ ho).2]
  obtain ⟨r', hrun, hs', hother⟩ := runCommand_operate hp hid (hw₁.aligned hseti) hstores
    (hpath ▸ hplace) command
  rw [hnames, hserves] at hrun hs'
  refine ⟨r', hrun, hs', fun path hpath' => ?_⟩
  rw [hother path fun heq => hpath' name (heq ▸ hpath ▸ hplace), H.data.contents]
  exact R.others path hpath'

/-- One request of the service is one step of the abstract machine. -/
theorem request_step (hp : Relator.BiUnique (Place configs)) (R : Simulates configs contents w s)
    {name : Bytes} {command : Command} {reply : Value}
    (h : w.request name (.ok command) = .ok (reply, w')) :
    (Spec.step (catalogOf configs) (.named name command, w.env (.named name command)) s).1 = reply ∧
      Simulates configs contents w'
        (Spec.step (catalogOf configs) (.named name command, w.env (.named name command)) s).2 := by
  obtain ⟨hw', hs⟩ := R.inv.request h
  have hset := hs.settings.trans R.settings
  unfold World.request at h
  split at h
  · next hname =>
    cases h
    simp only [Spec.step, hname, if_true]
    exact ⟨trivial, R⟩
  next hname =>
  split at h
  · next hfind =>
    cases h
    have hcat : catalogOf configs name = none := by
      rw [catalogOf, R.lookup, hfind]; rfl
    simp only [Spec.step, hname, if_false, hcat]
    exact ⟨trivial, R⟩
  next i item hfind =>
  obtain ⟨hcat, -⟩ := R.catalog hfind
  obtain ⟨⟨⟨reply₁, item'⟩, rocks⟩, ho, h⟩ := bind_eq_ok.mp h
  have hopens := ((Config.open_answers item w.rocks).2 _ _ _ ho).1
  have henv := World.env_eq (World.target_eq hname hfind) command
  dsimp only at h
  split at h
  · next hopen =>
    obtain ⟨command', hc, h⟩ := bind_eq_ok.mp h
    cases hc
    obtain ⟨⟨reply₂, rocks₂⟩, hr, h⟩ := bind_eq_ok.mp h
    cases h
    obtain ⟨r', hrun, hs', hothers⟩ := command_step hp R hfind ho hopen command
    cases hrun.symm.trans hr
    have hstep : Spec.step (catalogOf configs) (.named name command, w.env (.named name command)) s =
        Spec.operate name item.cfNames (w.serves item) s command := by
      simp only [Spec.step, hname, if_false, hcat, henv, hopens.mp hopen, decide_true, if_true]
    rw [hstep]
    exact ⟨rfl, hw', hset, hs', hothers⟩
  · next hclosed =>
    cases h
    have H := Config.open_effect ho
    have hnot : ¬ item.Opens w.rocks := fun h => hclosed (hopens.mpr h)
    have hstep : Spec.step (catalogOf configs) (.named name command, w.env (.named name command)) s =
        (errorReply 4, s) := by
      simp only [Spec.step, hname, if_false, hcat, henv, hnot, decide_false]
      rfl
    have hreply : reply = errorReply 4 := by
      rcases H.outcome with ⟨h, -, rfl, -⟩ | ⟨-, h, -⟩ | ⟨-, -, h, -⟩
      · exact absurd h hclosed
      · exact absurd h hclosed
      · exact h
    have hcontents : rocks.contents = w.rocks.contents := H.data.contents
    rw [hstep]
    refine ⟨hreply.symm, hw', hset, ?_, fun path hpath => ?_⟩
    · rw [hcontents]
      exact R.stores
    · rw [hcontents]
      exact R.others path hpath

/-- A request is left unanswered only if RocksDB refuses a call that creates its database: then an
assertion of `open` fails. -/
theorem request_fault (hp : Relator.BiUnique (Place configs)) (R : Simulates configs contents w s)
    {name : Bytes} {command : Command} {f : Fault} (h : w.request name (.ok command) = .error f) :
    f = .assertion ∧ w.Aborts (.named name command) := by
  unfold World.request at h
  split at h
  · cases h
  next hname =>
  split at h
  · cases h
  next i item hfind =>
  rcases bind_eq_error.mp h with h | ⟨⟨⟨reply, item'⟩, rocks⟩, ho, h⟩
  · refine ⟨Config.open_fault h, item, World.target_eq hname hfind, fun hreturns => ?_⟩
    obtain ⟨p, hp⟩ := (Config.open_answers item w.rocks).1.mpr hreturns
    cases h.symm.trans hp
  dsimp only at h
  split at h
  · next hopen =>
    -- an open database answers every operation
    obtain ⟨r', hrun, -⟩ := command_step hp R hfind ho hopen command
    rw [ok_bind, hrun] at h
    cases h
  · cases h

theorem observe_step (hp : Relator.BiUnique (Place configs)) (R : Simulates configs contents w s)
    {q : Bytes × Spec.Query} (hq : requestOf q.1 = .ok q.2.request) {o : Value × Spec.Env}
    (h : observe q w = .ok (o, w')) :
    (Spec.step (catalogOf configs) (q.2, o.2) s).1 = o.1 ∧
      Simulates configs contents w' (Spec.step (catalogOf configs) (q.2, o.2) s).2 := by
  obtain ⟨⟨reply, w₁⟩, h₁, h⟩ := bind_eq_ok.mp h
  cases h
  rw [execReply_eq q.1 R.inv, hq, ok_bind] at h₁
  obtain ⟨inp, query⟩ := q
  cases query with
  | rejected => cases h₁; exact ⟨rfl, R⟩
  | named name command => exact request_step hp R h₁

theorem observe_fault (hp : Relator.BiUnique (Place configs)) (R : Simulates configs contents w s)
    {q : Bytes × Spec.Query} (hq : requestOf q.1 = .ok q.2.request) {f : Fault}
    (h : observe q w = .error f) : f = .assertion ∧ w.Aborts q.2 := by
  rcases bind_eq_error.mp h with h | ⟨_, -, h⟩
  · rw [execReply_eq q.1 R.inv, hq, ok_bind] at h
    obtain ⟨inp, query⟩ := q
    cases query with
    | rejected => cases h
    | named name command => exact request_fault hp R h
  · cases h

end

/-- A run of the service is a run of the abstract machine, with the answers of RocksDB as they come. It
is cut off only where RocksDB refuses a call by which `open` creates a database. -/
theorem execReply_refines {file : Bytes} {configs : List Config} {rocks : Rocks}
    (hread : readConfigs rocks.api file = .ok (some configs))
    (hpaths : (configs.map Config.path).Nodup) (hlive : rocks.live = fun _ => none)
    (hfits : ∀ path family key v, rocks.contents path family key = some v →
      v.length ≤ Json.maxStringLength)
    {qs : List (Bytes × Spec.Query)} (hqs : ∀ q ∈ qs, requestOf q.1 = .ok q.2.request) :
    (∃ before q after os w, qs = before ++ q :: after ∧
      run observe before ⟨configs, rocks⟩ = .ok (os, w) ∧ w.Aborts q.2 ∧
      run observe qs ⟨configs, rocks⟩ = .error .assertion) ∨
    ∃ os w', run observe qs ⟨configs, rocks⟩ = .ok (os, w') ∧
      (trace (Spec.step (catalogOf configs)) (List.zipWith (fun q o => (q.2, o.2)) qs os)
        (storeOf configs rocks.contents)).1 = os.map Prod.fst ∧
      Families.Represents (Place configs) JString.bytes
        (trace (Spec.step (catalogOf configs)) (List.zipWith (fun q o => (q.2, o.2)) qs os)
          (storeOf configs rocks.contents)).2 w'.rocks.contents ∧
      ∀ path, (∀ name, ¬ Place configs name path) →
        w'.rocks.contents path = rocks.contents path := by
  have hp := place_biUnique hpaths
  have R : Simulates configs rocks.contents ⟨configs, rocks⟩ (storeOf configs rocks.contents) :=
    ⟨.start (readConfigs_start hread) hlive, rfl, storeOf_represents hfits, fun _ _ => rfl⟩
  have hstep : ∀ {q w s o w'}, requestOf q.1 = .ok q.2.request →
      Simulates configs rocks.contents w s → observe q w = .ok (o, w') →
      (Spec.step (catalogOf configs) (q.2, o.2) s).1 = o.1 ∧
        Simulates configs rocks.contents w' (Spec.step (catalogOf configs) (q.2, o.2) s).2 :=
    fun hq R h => observe_step hp R hq h
  cases hrun : run observe qs ⟨configs, rocks⟩ with
  | error f =>
    obtain ⟨before, q, after, os, w, rfl, hbefore, hq⟩ := run_eq_error.mp hrun
    obtain ⟨hqs₁, hqs₂⟩ := List.forall_mem_append.mp hqs
    have R' := (run_simulates hstep hqs₁ R hbefore).2
    obtain ⟨rfl, haborts⟩ := observe_fault hp R' (hqs₂ q (List.mem_cons_self ..)) hq
    exact .inl ⟨before, q, after, os, w, rfl, hbefore, haborts, rfl⟩
  | ok p =>
    obtain ⟨os, w'⟩ := p
    obtain ⟨hos, R'⟩ := run_simulates hstep hqs R hrun
    exact .inr ⟨os, w', rfl, hos, R'.stores, R'.others⟩

def putQuery : Spec.Query := .named (ascii "a") (.put (ascii "k") ⟨ascii "v", by decide⟩)

def getQuery : Spec.Query := .named (ascii "a") (.get (ascii "k"))

/-- A request to put `v` under `k` and one to get it back. -/
def putAndGet : List (Bytes × Spec.Query) := [(putPayload, putQuery), (getPayload, getQuery)]

theorem execReply_refines_putAndGet : ∃ os w',
    run observe putAndGet ⟨[plainConfig], emptyRocks⟩ = .ok (os, w') ∧
    os.map Prod.fst = [errorReply 0, Spec.readReply (some ⟨ascii "v", by decide⟩)] ∧
    (trace (Spec.step (catalogOf [plainConfig]))
      (List.zipWith (fun q o => (q.2, o.2)) putAndGet os)
      (storeOf [plainConfig] emptyRocks.contents)).1 = os.map Prod.fst := by
  have hread : readConfigs emptyRocks.api plainFile = .ok (some [plainConfig]) :=
    readConfigs_plainFile
  have hqs : ∀ q ∈ putAndGet, requestOf q.1 = .ok q.2.request := by
    intro q hq
    rcases List.mem_cons.mp hq with rfl | hq
    · exact requestOf_putPayload
    · cases List.mem_singleton.mp hq
      exact requestOf_getPayload
  have hw : World.Served ⟨[plainConfig], emptyRocks⟩ :=
    ⟨.start (readConfigs_start readConfigs_plainFile) rfl, fun _ => rfl⟩
  rcases execReply_refines hread (by decide) rfl nofun hqs with
    ⟨before, q, _, _, w, -, hbefore, haborts, -⟩ | ⟨os, w', hrun, hos, -⟩
  · exact absurd haborts ((hw.run hbefore).1.not_aborts q.2)
  · refine ⟨os, w', hrun, ?_, hos⟩
    have henvs := (hw.run hrun).2
    obtain ⟨⟨reply₁, env₁⟩, w₁, os₁, -, hrest, rfl⟩ := run_cons_eq_ok.mp hrun
    obtain ⟨⟨reply₂, env₂⟩, w₂, os₂, -, hend, rfl⟩ := run_cons_eq_ok.mp hrest
    cases hend
    obtain rfl := henvs _ (List.mem_cons_self ..)
    obtain rfl := henvs _ (List.mem_cons_of_mem _ (List.mem_cons_self ..))
    exact hos.symm

def tooLong : Fault := .exception
  "in Json::Value::duplicateAndPrefixStringValue(): length too big for prefixing"

/-- The value of a reply is shorter than `2 ^ 31 - 5` bytes. -/
theorem observe_get_long {v : Bytes} (h : Json.maxStringLength < v.length)
    (h' : v.length < 2 ^ 32) :
    run observe [(getPayload, getQuery)] ⟨[plainConfig], holding v⟩ = .error tooLong := by
  have hinv : World.Inv ⟨[plainConfig], holding v⟩ :=
    .start (fun c hc => readConfigs_start readConfigs_plainFile c hc) rfl
  have hlong : Value.ofString v = .error tooLong := by
    rw [Value.ofString, dif_neg]
    · rfl
    · rw [Nat.mod_eq_of_lt h']
      exact Nat.not_le.mpr h
  have hreply : valueReply v = .error tooLong := by
    rw [valueReply, hlong]; rfl
  have hopen : plainConfig.open (holding v) = .ok ((errorReply 0,
      { plainConfig with isOpen := true, db := .object 0 }),
      ((holding v).tick.addFamilies (ascii "p") [kDefaultColumnFamilyName]).newDb
        ⟨ascii "p", defaultOptions⟩) := rfl
  obtain ⟨id, hid⟩ := (Config.open_effect hopen).openOn rfl rfl
  have haligned := Config.Aligned.of_settings (readConfigs_start readConfigs_plainFile _
    (List.mem_singleton.mpr rfl)).2 (Config.open_effect hopen).settings
  have hget := runCommand_eq hid haligned (.get (ascii "k"))
  dsimp only at hget
  rw [show Rocks.readAt _ _ _ _ = valueReply v from rfl, hreply] at hget
  have hrequest : World.request ⟨[plainConfig], holding v⟩ (ascii "a") (.ok (.get (ascii "k"))) =
      .error tooLong := by
    rw [World.request, if_neg (by decide)]
    rw [show World.find? _ _ = some (0, plainConfig) from rfl]
    simp only [hopen, ok_bind, hget]
    rfl
  simp only [run, observe, execReply_eq _ hinv, requestOf_getPayload, ok_bind]
  rw [show World.answer _ (.named _ _) = _ from hrequest]
  rfl

/-- A value of `2 ^ 31` bytes, which RocksDB holds, cannot be got. -/
theorem observe_get_two_pow_31 :
    ∃ (configs : List Config) (rocks : Rocks),
      readConfigs rocks.api plainFile = .ok (some configs) ∧
      (configs.map Config.path).Nodup ∧ (rocks.live = fun _ => none) ∧
      requestOf getPayload = .ok getQuery.request ∧
      run observe [(getPayload, getQuery)] ⟨configs, rocks⟩ = .error tooLong := by
  refine ⟨[plainConfig], holding (List.replicate (2 ^ 31) 0), readConfigs_plainFile, by decide, rfl,
    requestOf_getPayload, observe_get_long ?_ ?_⟩
  · rw [List.length_replicate]; decide
  · rw [List.length_replicate]; decide

end RocksdbService
