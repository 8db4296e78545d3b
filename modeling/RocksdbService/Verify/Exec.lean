import RocksdbService.Verify.Command
import RocksdbService.Verify.Open

/-! # The state of the process between requests

`World.Inv` is what holds whenever no request is being executed: an open configuration stands on a
live object of its own at its own path with the handles of its families, a closed one has no object,
and there is no live object besides. `open` and every operation keep it (`Inv.open`,
`Inv.of_objects`), so `exec_json` does (`Inv.execReply`). What an operation does on an open
configuration is `runCommand_eq`. -/

namespace RocksdbService

open Outcome
open Json (Value)

/-! ## The invariant -/

/-- The names of a configuration are the descriptors that `open` builds from them. -/
structure Config.Aligned (c : Config) : Prop where
  plain : c.isCf = false → c.cfNames = []
  families : c.isCf = true → c.cfNames = c.columnFamilies

theorem Config.Aligned.of_settings {c c' : Config} (h : c.Aligned)
    (hs : c'.settings = c.settings) : c'.Aligned := by
  obtain ⟨-, -, -, hnames, hcf⟩ := Config.settings_eq_iff.mp hs
  constructor
  · rw [hnames, hcf]; exact h.plain
  · rw [hnames, hcf, show c'.columnFamilies = c.columnFamilies by simp [columnFamilies, hnames]]
    exact h.families

structure World.Inv (w : World) : Prop where
  fresh : w.rocks.Fresh
  opened : ∀ {i : Nat} {c : Config}, w.configs[i]? = some c → c.isOpen = true →
    ∃ id, c.OpenOn w.rocks id
  closed : ∀ {i : Nat} {c : Config}, w.configs[i]? = some c → c.isOpen = false →
    c.db = .null ∨ c.db = .indeterminate
  unique : ∀ {i j : Nat} {c c' : Config} {id : Nat}, w.configs[i]? = some c →
    w.configs[j]? = some c' → c.db = .object id → c'.db = .object id → i = j
  aligned : ∀ {i : Nat} {c : Config}, w.configs[i]? = some c → c.Aligned
  owned : ∀ {id : Nat}, (w.rocks.live id).isSome →
    ∃ (i : Nat) (c : Config), w.configs[i]? = some c ∧ c.db = .object id

namespace World.Inv

variable {w : World}

/-- At the start of the process nothing is open. -/
theorem start {configs : List Config} {r : Rocks}
    (hc : ∀ c ∈ configs, c = c.settings ∧ c.Aligned) (hr : r.live = fun _ => none) :
    World.Inv ⟨configs, r⟩ where
  fresh id h := by rw [hr] at h; cases h
  opened {i c} h ho := by
    rw [(hc c (List.mem_of_getElem? h)).1] at ho
    cases ho
  closed {i c} h _ := .inr (by rw [(hc c (List.mem_of_getElem? h)).1]; rfl)
  unique {i j c c' id} h _ hd _ := by
    rw [(hc c (List.mem_of_getElem? h)).1] at hd
    cases hd
  aligned h := (hc _ (List.mem_of_getElem? h)).2
  owned {id} h := by
    dsimp only at h
    rw [hr] at h
    cases h

theorem isOpen_of_object (hw : w.Inv) {i id : Nat} {c : Config} (h : w.configs[i]? = some c)
    (hdb : c.db = .object id) : c.isOpen = true := by
  by_contra ho
  rcases hw.closed h (by simpa using ho) with hn | hn <;> rw [hdb] at hn <;> cases hn

/-- The objects of open configurations have been given out. -/
theorem lt_next (hw : w.Inv) {i id : Nat} {c : Config} (h : w.configs[i]? = some c)
    (hdb : c.db = .object id) : id < w.rocks.next := by
  obtain ⟨id', ho⟩ := hw.opened h (hw.isOpen_of_object h hdb)
  obtain rfl : id' = id := by
    have := ho.db.symm.trans hdb
    cases this; rfl
  exact hw.fresh id' (by rw [ho.live]; rfl)

/-- A configuration after `open` has been called. -/
theorem getElem?_set_cases {cs : List Config} {i j : Nat} {c c' : Config}
    (h : (cs.set i c)[j]? = some c') : j = i ∧ c' = c ∨ j ≠ i ∧ cs[j]? = some c' := by
  rw [List.getElem?_set] at h
  split at h
  · next heq =>
    split at h
    · cases h; exact .inl ⟨heq.symm, rfl⟩
    · cases h
  · next hne => exact .inr ⟨Ne.symm hne, h⟩

/-- One configuration changes; the objects of the others are left alone. -/
theorem set (hw : w.Inv) {i : Nat} {c c' : Config} {r' : Rocks} (hi : w.configs[i]? = some c)
    (hset : c'.settings = c.settings) (hfresh : r'.Fresh) (hapi : r'.api = w.rocks.api)
    (hopened : c'.isOpen = true → ∃ id, c'.OpenOn r' id)
    (hclosed : c'.isOpen = false → c'.db = .null ∨ c'.db = .indeterminate)
    (hnew : ∀ {id : Nat}, c'.db = .object id → c.db = .object id ∨ w.rocks.next ≤ id)
    (hkeep : ∀ {id : Nat}, c'.db ≠ .object id → r'.live id = w.rocks.live id)
    (howned : ∀ {id : Nat}, (r'.live id).isSome → c.db ≠ .object id ∨ c'.db = .object id) :
    World.Inv ⟨w.configs.set i c', r'⟩ := by
  have hlen : i < w.configs.length := (List.getElem?_eq_some_iff.mp hi).1
  have hother : ∀ {j : Nat} {d : Config} {id : Nat}, j ≠ i → w.configs[j]? = some d →
      d.db = .object id → c'.db ≠ .object id := fun hne hj hd hc' => by
    rcases hnew hc' with hc | hle
    · exact hne (hw.unique hj hi hd hc)
    · exact absurd hle (Nat.not_le.mpr (hw.lt_next hj hd))
  refine ⟨hfresh, fun {j d} hj ho => ?_, fun {j d} hj ho => ?_, fun {j k d e id} hj hk hd he => ?_,
    fun {j d} hj => ?_, fun {id} hid => ?_⟩
  · rcases getElem?_set_cases hj with ⟨rfl, rfl⟩ | ⟨hne, hj⟩
    · exact hopened ho
    · obtain ⟨id, hd⟩ := hw.opened hj ho
      exact ⟨id, hd.of_live hapi (hkeep (hother hne hj hd.db))⟩
  · rcases getElem?_set_cases hj with ⟨rfl, rfl⟩ | ⟨hne, hj⟩
    · exact hclosed ho
    · exact hw.closed hj ho
  · rcases getElem?_set_cases hj with ⟨hj', rfl⟩ | ⟨hne, hj'⟩ <;>
      rcases getElem?_set_cases hk with ⟨hk', rfl⟩ | ⟨hne', hk'⟩
    · exact hj'.trans hk'.symm
    · exact absurd hd (hother hne' hk' he)
    · exact absurd he (hother hne hj' hd)
    · exact hw.unique hj' hk' hd he
  · rcases getElem?_set_cases hj with ⟨rfl, rfl⟩ | ⟨-, hj⟩
    · exact (hw.aligned hi).of_settings hset
    · exact hw.aligned hj
  · by_cases hc' : c'.db = .object id
    · exact ⟨i, c', List.getElem?_set_self hlen, hc'⟩
    · have hlive : (w.rocks.live id).isSome := hkeep hc' ▸ hid
      obtain ⟨j, d, hj, hd⟩ := hw.owned hlive
      have hne : i ≠ j := fun heq => by
        subst heq
        cases hi.symm.trans hj
        exact (howned hid).elim (absurd hd) hc'
      exact ⟨j, d, by rw [List.getElem?_set_ne hne]; exact hj, hd⟩

theorem «open» (hw : w.Inv) {i : Nat} {c c' : Config} {r' : Rocks} {reply : Value}
    (hi : w.configs[i]? = some c) (h : c.open w.rocks = .ok ((reply, c'), r')) :
    World.Inv ⟨w.configs.set i c', r'⟩ := by
  have H := Config.open_effect h
  rcases H.outcome with ⟨-, -, rfl, rfl⟩ | ⟨ho, ho', -, id, hle, -, hdb, -, hlive, -⟩ |
    ⟨ho, ho', -, hdb, hlive⟩
  · obtain ⟨hlt, rfl⟩ := List.getElem?_eq_some_iff.mp hi
    rwa [List.set_getElem_self]
  · obtain ⟨id', hself⟩ := H.openOn ho ho'
    have hclosed : ∀ {id' : Nat}, c.db ≠ .object id' := fun hc => by
      rw [hw.isOpen_of_object hi hc] at ho
      cases ho
    refine hw.set hi H.settings (H.fresh hw.fresh) H.data.api (fun _ => ⟨id', hself⟩)
      (fun hc => ?_) (fun hc => ?_) (fun {id'} hc => ?_) (fun _ => .inl hclosed)
    · rw [ho'] at hc; cases hc
    · cases hdb.symm.trans hc
      exact .inr hle
    · exact hlive hw.fresh id' fun heq => hc (heq ▸ hdb)
  · refine hw.set hi H.settings (H.fresh hw.fresh) H.data.api (fun hc => ?_)
      (fun _ => .inl hdb) (fun hc => ?_) (fun _ => congrFun (hlive hw.fresh) _) (fun _ => .inl fun hc => ?_)
    · rw [ho'] at hc; cases hc
    · rw [hdb] at hc; cases hc
    · rw [hw.isOpen_of_object hi hc] at ho
      cases ho

end World.Inv

/-! ## Operations -/

namespace Rocks

/-- Whether the next call is served. -/
def serves (r : Rocks) : Bool := r.answers r.calls = .serve

/-- The next call has been answered. -/
def tick (r : Rocks) : Rocks := { r with calls := r.calls + 1 }

/-- The reply to a read of `key`. -/
def readAt (r : Rocks) (path family key : Bytes) : Outcome Value :=
  match r.serves, r.contents path family key with
  | true, some value => valueReply value
  | _, _ => .ok (errorReply (-2))

/-- The reply to a write that makes `contents` of the contents, and the state after it. -/
def writeAt (r : Rocks) (contents : Contents) : Value × Rocks :=
  if r.serves then (errorReply 0, { r.tick with contents }) else (errorReply (-2), r.tick)

theorem get_eq {r : Rocks} {db : DbPtr} {handle : Option Handle} {path family : Bytes}
    (h : r.family db handle = .ok (path, family)) (key : Bytes) :
    (do let ((status, value), r) ← Rocks.get db handle key r
        return (← Config.readReply status value, r)) =
      (do return (← r.readAt path family key, r.tick)) := by
  unfold Rocks.get readAt serves
  simp only [h, ok_bind]
  cases ha : r.answers r.calls with
  | serve =>
    simp only [answer, ha]
    cases r.contents path family key <;> rfl
  | refuse b => simp only [answer, ha]; rfl

theorem put_eq {r : Rocks} {db : DbPtr} {handle : Option Handle} {path family : Bytes}
    (h : r.family db handle = .ok (path, family)) (key value : Bytes) :
    (do let (status, r) ← Rocks.put db handle key value r
        return (Config.writeReply status, r)) =
      Except.ok (r.writeAt (r.contents.put path family key value)) := by
  unfold Rocks.put writeAt serves
  simp only [h, ok_bind]
  cases ha : r.answers r.calls <;> simp only [answer, ha] <;> rfl

theorem write_eq {r : Rocks} {db : DbPtr} {path family : Bytes}
    (h : r.family db none = .ok (path, family)) (batch : List (Bytes × Bytes)) :
    (do let (status, r) ← Rocks.write db batch r
        return (Config.writeReply status, r)) =
      Except.ok (r.writeAt (r.contents.putAll path family batch)) := by
  unfold Rocks.write writeAt serves
  simp only [h, ok_bind]
  cases ha : r.answers r.calls <;> simp only [answer, ha] <;> rfl

end Rocks

namespace Config.OpenOn

variable {c : Config} {r : Rocks} {id : Nat}

theorem db_ne_null (h : c.OpenOn r id) : c.db ≠ .null := by
  rw [h.db]; exact nofun

theorem family_none (h : c.OpenOn r id) :
    r.family c.db none = .ok (c.path, kDefaultColumnFamilyName) := by
  rw [h.db]
  simp [Rocks.family, Rocks.deref_object h.live]

theorem family_some (h : c.OpenOn r id) (family : Bytes) :
    r.family c.db (some ⟨id, family⟩) = .ok (c.path, family) := by
  rw [h.db]
  simp [Rocks.family, Rocks.deref_object h.live]

/-- `get_handle` finds the handle of the family that has the name, and null for the other names. -/
theorem getHandle_eq (h : c.OpenOn r id) (ha : c.Aligned) (str : Bytes) :
    c.getHandle str = .ok (if str ∈ c.cfNames then some ⟨id, str⟩ else none) := by
  unfold Config.getHandle
  split
  · next hnone =>
    have hmem : str ∉ c.cfNames := fun hmem => by
      simpa using List.findIdx?_eq_none_iff.mp hnone str hmem
    rw [if_neg hmem]
  · next i hsome =>
    obtain ⟨hi, heq, -⟩ := List.findIdx?_eq_some_iff_getElem.mp hsome
    have heq : c.cfNames[i] = str := by simpa using heq
    have hcf : c.isCf = true := by
      by_contra hcf
      rw [ha.plain (by simpa using hcf)] at hi
      exact absurd hi (Nat.not_lt_zero i)
    have hhandle : c.handles[i]? = some ⟨id, str⟩ := by
      rw [h.handles hcf, ← ha.families hcf, List.getElem?_map, List.getElem?_eq_getElem hi, heq]
      rfl
    rw [hhandle, if_pos (heq ▸ List.getElem_mem hi)]

end Config.OpenOn

/-- What a command does on an open configuration. -/
theorem runCommand_eq {c : Config} {r : Rocks} {id : Nat} (h : c.OpenOn r id) (ha : c.Aligned)
    (command : Command) : runCommand c command r =
      match command with
      | .put key value =>
        .ok (r.writeAt (r.contents.put c.path kDefaultColumnFamilyName key value.bytes))
      | .putCf column key value =>
        .ok (if column ∈ c.cfNames then r.writeAt (r.contents.put c.path column key value.bytes)
          else (errorReply 7, r))
      | .writeBatch items =>
        .ok (r.writeAt (r.contents.putAll c.path kDefaultColumnFamilyName (batchBytes items)))
      | .get key => do return (← r.readAt c.path kDefaultColumnFamilyName key, r.tick)
      | .getCf column key =>
        if column ∈ c.cfNames then do return (← r.readAt c.path column key, r.tick)
        else .ok (errorReply 7, r)
      | .unknown => .ok (errorReply 7, r) := by
  cases command with
  | put key value =>
    simp only [runCommand, Config.put, if_neg h.db_ne_null]
    exact Rocks.put_eq h.family_none key value.bytes
  | putCf column key value =>
    simp only [runCommand, Config.putCf, if_neg h.db_ne_null, h.getHandle_eq ha, ok_bind]
    by_cases hmem : column ∈ c.cfNames
    · simp only [if_pos hmem]
      exact Rocks.put_eq (h.family_some column) key value.bytes
    · simp only [if_neg hmem]
      rfl
  | writeBatch items => exact Rocks.write_eq h.family_none (batchBytes items)
  | get key =>
    simp only [runCommand, Config.get, if_neg h.db_ne_null]
    exact Rocks.get_eq h.family_none key
  | getCf column key =>
    simp only [runCommand, Config.getCf, if_neg h.db_ne_null, h.getHandle_eq ha, ok_bind]
    by_cases hmem : column ∈ c.cfNames
    · simp only [if_pos hmem]
      exact Rocks.get_eq (h.family_some column) key
    · simp only [if_neg hmem]
      rfl
  | unknown => rfl

/-- No `DB` object has come or gone. -/
structure Rocks.SameObjects (r r' : Rocks) : Prop where
  api : r'.api = r.api
  answers : r'.answers = r.answers
  live : r'.live = r.live
  next : r'.next = r.next

/-- A command changes the contents and counts its call, if it makes one. -/
theorem Config.OpenOn.command_state {c : Config} {r r' : Rocks} {id : Nat} (h : c.OpenOn r id)
    (ha : c.Aligned) {command : Command} {reply : Value}
    (hr : runCommand c command r = .ok (reply, r')) :
    ∃ contents n, r' = { r with contents, calls := r.calls + n } := by
  rw [runCommand_eq h ha] at hr
  have hwrite : ∀ {contents : Contents}, r.writeAt contents = (reply, r') →
      ∃ contents n, r' = { r with contents, calls := r.calls + n } := by
    intro contents hr
    unfold Rocks.writeAt at hr
    split at hr <;> cases hr
    · exact ⟨contents, 1, rfl⟩
    · exact ⟨r.contents, 1, rfl⟩
  have hread : ∀ {path family key : Bytes},
      (do return (← r.readAt path family key, r.tick) : Outcome _) = .ok (reply, r') →
        ∃ contents n, r' = { r with contents, calls := r.calls + n } := by
    intro path family key hr
    obtain ⟨v, -, hr⟩ := bind_eq_ok.mp hr
    cases hr
    exact ⟨r.contents, 1, rfl⟩
  have hnone : ∀ {v : Value}, (Except.ok (v, r) : Outcome (Value × Rocks)) = .ok (reply, r') →
      ∃ contents n, r' = { r with contents, calls := r.calls + n } := by
    intro v hr
    cases hr
    exact ⟨r.contents, 0, rfl⟩
  cases command with
  | put key value => exact hwrite (Except.ok.inj hr)
  | putCf column key value =>
    dsimp only at hr
    split at hr
    · exact hwrite (Except.ok.inj hr)
    · exact hnone hr
  | writeBatch items => exact hwrite (Except.ok.inj hr)
  | get key => exact hread hr
  | getCf column key =>
    dsimp only at hr
    split at hr
    · exact hread hr
    · exact hnone hr
  | unknown => exact hnone hr

theorem Config.OpenOn.command_objects {c : Config} {r r' : Rocks} {id : Nat} (h : c.OpenOn r id)
    (ha : c.Aligned) {command : Command} {reply : Value}
    (hr : runCommand c command r = .ok (reply, r')) : r.SameObjects r' := by
  obtain ⟨contents, n, rfl⟩ := h.command_state ha hr
  exact ⟨rfl, rfl, rfl, rfl⟩


/-- The invariant is about objects only. -/
theorem World.Inv.of_objects {configs : List Config} {r r' : Rocks} (hw : World.Inv ⟨configs, r⟩)
    (h : r.SameObjects r') : World.Inv ⟨configs, r'⟩ where
  fresh id hid := by
    rw [h.live] at hid
    exact h.next ▸ hw.fresh id hid
  opened hi ho := by
    obtain ⟨id, hid⟩ := hw.opened hi ho
    exact ⟨id, hid.of_live h.api (congrFun h.live id)⟩
  closed := hw.closed
  unique := hw.unique
  aligned := hw.aligned
  owned {id} hid := by
    dsimp only at hid
    rw [h.live] at hid
    exact hw.owned hid

/-! ## Requests -/

/-- A payload as `exec_json` sees it. -/
inductive Request
  /-- The reader does not accept it. -/
  | rejected
  /-- Its root has members; the fields of the operation are read when it comes to them. -/
  | named (dbName : Bytes) (command : Outcome Command)

/-- The request that a payload makes. -/
def requestOf (inp : Bytes) : Outcome Request := do
  match ← Json.parseFromStream inp with
  | .error _ => return .rejected
  | .ok root =>
    if root.isObjectLike then
      return .named (← (root.member (ascii "dbname")).asString) (commandOf root)
    else
      throw (.exception "in Json::Value::resolveReference(key, end): requires objectValue")

theorem requestOf_named {inp name : Bytes} {command : Outcome Command}
    (h : requestOf inp = .ok (.named name command)) :
    ∃ root, Json.parseFromStream inp = .ok (.ok root) ∧ root.isObjectLike = true ∧
      (root.member (ascii "dbname")).asString = .ok name ∧ command = commandOf root := by
  obtain ⟨parsed, hp, h⟩ := bind_eq_ok.mp h
  cases parsed with
  | error _ => cases h
  | ok root =>
    dsimp only at h
    split at h
    · next hobj =>
      obtain ⟨_, hs, h⟩ := bind_eq_ok.mp h
      cases h
      exact ⟨root, hp, hobj, hs, rfl⟩
    · cases h

theorem requestOf_root {inp name : Bytes} {root : Value} {command : Outcome Command}
    (hp : Json.parseFromStream inp = .ok (.ok root))
    (h : requestOf inp = .ok (.named name command)) :
    (root.member (ascii "dbname")).asString = .ok name ∧ commandOf root = command := by
  obtain ⟨root', hp', -, hs, rfl⟩ := requestOf_named h
  cases hp.symm.trans hp'
  exact ⟨hs, rfl⟩

theorem requestOf_eq {inp : Bytes} {root : Value} (hp : Json.parseFromStream inp = .ok (.ok root))
    (hobj : root.isObjectLike = true) :
    requestOf inp = (do return .named (← (root.member (ascii "dbname")).asString) (commandOf root)) := by
  simp [requestOf, hp, hobj]

namespace World

/-- The first configuration with a name, and where it is. -/
def find? (w : World) (name : Bytes) : Option (Nat × Config) := do
  let i ← w.configs.findIdx? (·.name = name)
  return (i, ← w.configs[i]?)

/-- The reply to a request for the database `name`. -/
def request (w : World) (name : Bytes) (command : Outcome Command) : Outcome (Value × World) :=
  if name = [] then .ok (errorReply 6, w)
  else
    match w.find? name with
    | none => .ok (errorReply 3, w)
    | some (i, item) => do
      let ((reply, item), rocks) ← item.open w.rocks
      if item.isOpen then
        let (reply, rocks) ← runCommand item (← command) rocks
        return (reply, ⟨w.configs.set i item, rocks⟩)
      else return (reply, ⟨w.configs.set i item, rocks⟩)

theorem request_of_find {w : World} {name : Bytes} (hname : name ≠ []) {i : Nat} {c : Config}
    (hfind : w.find? name = some (i, c)) (command : Outcome Command) :
    w.request name command = (do
      let ((reply, item), rocks) ← c.open w.rocks
      if item.isOpen then
        let (reply, rocks) ← runCommand item (← command) rocks
        return (reply, ⟨w.configs.set i item, rocks⟩)
      else return (reply, ⟨w.configs.set i item, rocks⟩)) := by
  rw [World.request, if_neg hname, hfind]

theorem find?_eq_some {w : World} {name : Bytes} {i : Nat} {c : Config}
    (h : w.find? name = some (i, c)) :
    w.configs[i]? = some c ∧ c.name = name ∧
      ∀ j d, j < i → w.configs[j]? = some d → d.name ≠ name := by
  simp only [find?, Option.bind_eq_bind, Option.bind_eq_some_iff] at h
  obtain ⟨j, hj, d, hd, h⟩ := h
  cases h
  obtain ⟨hlt, hname, hbefore⟩ := List.findIdx?_eq_some_iff_getElem.mp hj
  obtain ⟨_, rfl⟩ := List.getElem?_eq_some_iff.mp hd
  refine ⟨hd, by simpa using hname, fun j d hj hd' => ?_⟩
  obtain ⟨_, rfl⟩ := List.getElem?_eq_some_iff.mp hd'
  simpa using hbefore j hj

end World

/-- `exec_json` on a root with members is the request for its `dbname`. -/
theorem execRoot_eq {root : Value} (hobj : root.isObjectLike = true) (hwf : root.WellFormed)
    {w : World} (hw : w.Inv) :
    execRoot root (errorReply 0) w =
      (do w.request (← (root.member (ascii "dbname")).asString) (commandOf root)) := by
  unfold execRoot
  refine stringField_bind (.rfl hobj) fun name root₁ h₁ => ?_
  unfold World.request World.find?
  dsimp only
  split
  · rfl
  cases hi : w.configs.findIdx? (·.name = name) with
  | none => rfl
  | some i =>
    have hlt : i < w.configs.length := (List.findIdx?_eq_some_iff_getElem.mp hi).1
    have hc : w.configs[i]? = some w.configs[i] := List.getElem?_eq_getElem hlt
    simp only [hc, Option.bind_eq_bind, Option.bind_some]
    refine bind_congr_ok fun ⟨⟨reply, c⟩, rocks⟩ ho => ?_
    have hw' := hw.open hc ho
    have hset : (w.configs.set i c)[i]? = some c := List.getElem?_set_self hlt
    cases hopen : c.isOpen with
    | false => simp
    | true =>
      obtain ⟨id, hid⟩ := hw'.opened hset hopen
      obtain rfl : reply = errorReply 0 := by
        rcases (Config.open_effect ho).outcome with ⟨-, h, -⟩ | ⟨-, -, h, -⟩ | ⟨-, h, -⟩
        · exact h
        · exact h
        · rw [hopen] at h; cases h
      have hd := congrArg
        (· >>= fun p => pure (p.1, (⟨w.configs.set i c, p.2⟩ : World)))
        (dispatch_eq h₁ hwf hid.db_ne_null rocks)
      simp only [bind_assoc] at hd
      simpa using hd

/-- The reply to a request and the state after it. -/
def World.answer (w : World) : Request → Outcome (Value × World)
  | .rejected => .ok (errorReply 1, w)
  | .named dbName command => w.request dbName command

theorem execReply_eq (inp : Bytes) {w : World} (hw : w.Inv) :
    execReply inp w = (do w.answer (← requestOf inp)) := by
  unfold execReply requestOf
  rw [bind_assoc]
  refine bind_congr_ok fun parsed hp => ?_
  cases parsed with
  | error message => rfl
  | ok root =>
    dsimp only
    split
    · next hobj =>
      rw [execRoot_eq hobj (Json.parseFromStream_wellFormed hp) hw]
      rw [bind_assoc]
      rfl
    · next hobj =>
      simp [execRoot, stringField, Json.Value.resolveReference_error hobj]

namespace World

/-- What no request changes. -/
structure SameSettings (w w' : World) : Prop where
  settings : w'.configs.map Config.settings = w.configs.map Config.settings
  api : w'.rocks.api = w.rocks.api
  answers : w'.rocks.answers = w.rocks.answers

theorem SameSettings.rfl {w : World} : SameSettings w w := ⟨.refl _, .refl _, .refl _⟩

theorem SameSettings.trans {w₁ w₂ w₃ : World} (h : SameSettings w₁ w₂) (h' : SameSettings w₂ w₃) :
    SameSettings w₁ w₃ :=
  ⟨h'.settings.trans h.settings, h'.api.trans h.api, h'.answers.trans h.answers⟩

theorem findIdx?_settings (configs : List Config) (name : Bytes) :
    (configs.map Config.settings).findIdx? (·.name = name) = configs.findIdx? (·.name = name) := by
  rw [List.findIdx?_map]
  rfl

theorem SameSettings.find? {w w' : World} (h : SameSettings w w') {name : Bytes} {i : Nat} {c : Config}
    (hfind : w.find? name = some (i, c)) :
    ∃ c', w'.find? name = some (i, c') ∧ c'.settings = c.settings := by
  obtain ⟨i', hi', hfind⟩ := Option.bind_eq_some_iff.mp hfind
  obtain ⟨c₁, hc, heq⟩ := Option.bind_eq_some_iff.mp hfind
  cases heq
  have hidx : w'.configs.findIdx? (·.name = name) = some i := by
    rw [← findIdx?_settings, h.settings, findIdx?_settings]
    exact hi'
  have hget : (w'.configs[i]?).map Config.settings = some c.settings := by
    rw [← List.getElem?_map, h.settings, List.getElem?_map, hc]
    rfl
  obtain ⟨c', hc', hset⟩ := Option.map_eq_some_iff.mp hget
  refine ⟨c', ?_, hset⟩
  unfold World.find?
  simp [hidx, hc']

theorem map_settings_set {cs : List Config} {i : Nat} {c c' : Config} (hi : cs[i]? = some c)
    (h : c'.settings = c.settings) : (cs.set i c').map Config.settings = cs.map Config.settings := by
  obtain ⟨hlt, rfl⟩ := List.getElem?_eq_some_iff.mp hi
  rw [List.map_set, h, ← List.getElem_map Config.settings (h := by simpa using hlt)]
  exact List.set_getElem_self _

theorem Inv.request {w w' : World} (hw : w.Inv) {name : Bytes} {command : Outcome Command}
    {reply : Value} (h : w.request name command = .ok (reply, w')) : w'.Inv ∧ SameSettings w w' := by
  unfold World.request at h
  split at h
  · cases h; exact ⟨hw, .rfl⟩
  split at h
  · cases h; exact ⟨hw, .rfl⟩
  next i item hfind =>
  obtain ⟨hi, -, -⟩ := find?_eq_some hfind
  obtain ⟨⟨⟨reply₁, item'⟩, rocks⟩, ho, h⟩ := bind_eq_ok.mp h
  have hw₁ := hw.open hi ho
  have H := Config.open_effect ho
  have hs : SameSettings w ⟨w.configs.set i item', rocks⟩ :=
    ⟨map_settings_set hi H.settings, H.data.api, H.data.answers⟩
  dsimp only at h
  split at h
  · next hopen =>
    obtain ⟨c, -, h⟩ := bind_eq_ok.mp h
    obtain ⟨⟨reply₂, rocks₂⟩, hr, h⟩ := bind_eq_ok.mp h
    cases h
    have hset : (w.configs.set i item')[i]? = some item' :=
      List.getElem?_set_self (List.getElem?_eq_some_iff.mp hi).1
    obtain ⟨id, hid⟩ := hw₁.opened hset hopen
    have hobj := hid.command_objects (hw₁.aligned hset) hr
    exact ⟨hw₁.of_objects hobj, hs.trans ⟨rfl, hobj.api, hobj.answers⟩⟩
  · cases h
    exact ⟨hw₁, hs⟩

/-- `exec_json` keeps the invariant. -/
theorem Inv.execReply {w w' : World} (hw : w.Inv) {inp : Bytes} {reply : Value}
    (h : execReply inp w = .ok (reply, w')) : w'.Inv ∧ SameSettings w w' := by
  rw [execReply_eq inp hw] at h
  obtain ⟨q, -, h⟩ := bind_eq_ok.mp h
  cases q with
  | rejected => cases h; exact ⟨hw, .rfl⟩
  | named dbName command => exact hw.request h

end World

end RocksdbService
