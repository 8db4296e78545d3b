import RocksdbService.Theory.Run
import RocksdbService.Verify.Answers
import RocksdbService.Verify.ConfigFile
import RocksdbService.Verify.Instance
import RocksdbService.Verify.Limits

/-! # When `exec_json` returns, and with what

The conversions of `exec_json` throw on a value of the wrong type, so a payload is answered exactly
if its fields have types that convert, as far as the operation gets to read them
(`execReply_returns_iff`). What it is answered with is one of a few replies (`execReply_replies`),
each an object with a code. -/

namespace RocksdbService

open Outcome
open Json (Value valueToQuotedStringN)

/-! ## Fields -/

/-- The fields that an operation reads as strings. -/
def stringFields (op : Bytes) : List String :=
  if op = ascii "put_cf" then ["column", "key", "value"]
  else if op = ascii "put" then ["key", "value"]
  else if op = ascii "get" then ["key"]
  else if op = ascii "get_cf" then ["column", "key"]
  else []

/-- What `write_batch` takes. -/
def Batchable (items : Value) : Prop :=
  items.isObjectLike = true ∧ ∀ p ∈ items.entries, p.2.isStringLike = true

/-- The fields that the operation of a root reads have types that convert. -/
def WellTyped (root : Value) : Prop :=
  ∃ op, (root.member (ascii "op")).asString = .ok op ∧
    (∀ field ∈ stringFields op, (root.member (ascii field)).isStringLike = true) ∧
    (op = ascii "write_batch" → Batchable (root.member (ascii "items")))

theorem returns_asString_bind {α : Type} {v : Value} {f : Bytes → Outcome α} {p : Prop}
    (h : ∀ s, Returns (f s) ↔ p) : Returns (v.asString >>= f) ↔ v.isStringLike = true ∧ p := by
  rw [← Value.asString_eq_ok_iff]
  cases v.asString with
  | error e => exact iff_of_false (not_returns_error _) fun h => not_returns_error _ h.1
  | ok s => rw [ok_bind, h]; simp

theorem returns_textOf_iff {v : Value} (hv : v.WellFormed) :
    Returns (textOf v) ↔ v.isStringLike = true := by
  rw [← Value.asString_eq_ok_iff, asString_eq_textOf hv]
  cases textOf v <;> simp [Returns, Functor.map, Except.map]

theorem returns_mapM_iff {α β : Type} {f : α → Outcome β} {xs : List α} :
    Returns (xs.mapM f) ↔ ∀ x ∈ xs, Returns (f x) := by
  induction xs with
  | nil => exact iff_of_true ⟨[], rfl⟩ nofun
  | cons x xs ih =>
    rw [List.mapM_cons, returns_bind, List.forall_mem_cons, ← ih]
    constructor
    · rintro ⟨y, hx, h⟩
      obtain ⟨ys, hxs, -⟩ := returns_bind.mp h
      exact ⟨⟨y, hx⟩, ys, hxs⟩
    · rintro ⟨⟨y, hx⟩, ys, hxs⟩
      exact ⟨y, hx, y :: ys, by rw [hxs]; rfl⟩

theorem returns_batchOf_iff {items : Value} (hv : items.WellFormed) :
    Returns (batchOf items) ↔ Batchable items := by
  unfold batchOf Batchable
  split
  · exact iff_of_true (returns_ok _) ⟨rfl, nofun⟩
  · next ms =>
    rw [returns_mapM_iff]
    refine Iff.trans (forall₂_congr fun p hp => ?_) (and_iff_right rfl).symm
    rw [← returns_textOf_iff (hv.of_mem hp), returns_bind]
    exact ⟨fun ⟨s, h, _⟩ => ⟨s, h⟩, fun ⟨s, h⟩ => ⟨s, h, returns_ok _⟩⟩
  · next h₁ h₂ =>
    refine iff_of_false (not_returns_error _) fun h => ?_
    cases items with
    | null => exact h₁ rfl
    | object ms => exact h₂ ms rfl
    | _ => cases h.1

theorem returns_commandOf_iff {root : Value} (hv : root.WellFormed) :
    Returns (commandOf root) ↔ WellTyped root := by
  have text : ∀ {key : Bytes} {g : Json.JString → Command},
      Returns (do return g (← textOf (root.member key)) : Outcome Command) ↔
        (root.member key).isStringLike = true := by
    intro key g
    rw [← returns_textOf_iff (hv.member key), returns_bind]
    exact ⟨fun ⟨s, h, _⟩ => ⟨s, h⟩, fun ⟨s, h⟩ => ⟨s, h, returns_ok _⟩⟩
  unfold commandOf WellTyped
  cases hop : (root.member (ascii "op")).asString with
  | error e =>
    exact iff_of_false (not_returns_error _) fun ⟨_, h, _⟩ => nomatch h
  | ok op =>
    simp only [ok_bind, Except.ok.injEq, exists_eq_left']
    -- an operation other than a batch reads its string fields only
    have nobatch : ∀ (fields : List String) {p : Prop}, op ≠ ascii "write_batch" →
        stringFields op = fields →
        ((∀ field ∈ stringFields op, (root.member (ascii field)).isStringLike = true) ∧
          (op = ascii "write_batch" → p) ↔
        ∀ field ∈ fields, (root.member (ascii field)).isStringLike = true) := by
      rintro fields p hne rfl
      simp [hne]
    split
    · next h =>
      rw [nobatch ["column", "key", "value"] (by rw [h]; decide) (by rw [h]; decide)]
      exact (returns_asString_bind fun _ => returns_asString_bind fun _ => text).trans (by simp)
    split
    · next h =>
      rw [nobatch ["key", "value"] (by rw [h]; decide) (by rw [h]; decide)]
      exact (returns_asString_bind fun _ => text).trans (by simp)
    split
    · next h =>
      have hfields : stringFields op = [] := by rw [h]; decide
      rw [← returns_batchOf_iff (hv.member _), returns_bind, hfields]
      constructor
      · rintro ⟨items, hi, -⟩
        exact ⟨nofun, fun _ => ⟨items, hi⟩⟩
      · rintro ⟨-, hitems⟩
        obtain ⟨items, hi⟩ := hitems h
        exact ⟨items, hi, returns_ok _⟩
    split
    · next h =>
      rw [nobatch ["key"] (by rw [h]; decide) (by rw [h]; decide)]
      exact (returns_asString_bind fun _ => iff_true_intro ⟨_, rfl⟩).trans (by simp)
    split
    · next h =>
      rw [nobatch ["column", "key"] (by rw [h]; decide) (by rw [h]; decide)]
      exact (returns_asString_bind fun _ =>
        returns_asString_bind fun _ => iff_true_intro ⟨_, rfl⟩).trans (by simp)
    · next h₁ h₂ h₃ h₄ h₅ =>
      rw [nobatch [] h₃ (by simp only [stringFields, if_neg h₁, if_neg h₂, if_neg h₄, if_neg h₅])]
      exact iff_of_true (returns_ok _) nofun

/-! ## Operations -/

namespace Command

/-- The family and the key that an operation reads. -/
def addressed (command : Command) (c : Config) : Option (Bytes × Bytes) :=
  match command with
  | .get key => some (kDefaultColumnFamilyName, key)
  | .getCf column key => if column ∈ c.cfNames then some (column, key) else none
  | .put _ _ | .putCf _ _ _ | .writeBatch _ | .unknown => none

/-- The value that an operation finds, if RocksDB serves its call. -/
def fetched (command : Command) (c : Config) (contents : Contents) (served : Bool) : Option Bytes :=
  if served then do
    let (family, key) ← command.addressed c
    contents c.path family key
  else none

/-- The code of the reply to an operation that finds no value. -/
def code (command : Command) (c : Config) (served : Bool) : Int :=
  match command with
  | .put _ _ | .writeBatch _ => if served then 0 else -2
  | .putCf column _ _ => if column ∈ c.cfNames then (if served then 0 else -2) else 7
  | .get _ => -2
  | .getCf column _ => if column ∈ c.cfNames then -2 else 7
  | .unknown => 7

end Command

theorem Rocks.readAt_eq (r : Rocks) (path family key : Bytes) :
    r.readAt path family key =
      match (if r.serves then r.contents path family key else none) with
      | some value => valueReply value
      | none => .ok (errorReply (-2)) := by
  unfold Rocks.readAt
  cases r.serves <;> cases r.contents path family key <;> rfl

theorem Rocks.writeAt_eq (r : Rocks) (contents : Contents) :
    ∃ r', r.writeAt contents = (errorReply (if r.serves then 0 else -2), r') := by
  unfold Rocks.writeAt
  cases r.serves <;> exact ⟨_, rfl⟩

/-- The reply to a command on an open configuration. -/
theorem runCommand_reply {c : Config} {r : Rocks} {id : Nat} (h : c.OpenOn r id) (ha : c.Aligned)
    (command : Command) :
    ∃ r', runCommand c command r =
      match command.fetched c r.contents r.serves with
      | some value => do return (← valueReply value, r')
      | none => .ok (errorReply (command.code c r.serves), r') := by
  rw [runCommand_eq h ha]
  have read : ∀ (family key : Bytes),
      (do return (← r.readAt c.path family key, r.tick) : Outcome (Value × Rocks)) =
        match (if r.serves then r.contents c.path family key else none) with
        | some value => do return (← valueReply value, r.tick)
        | none => .ok (errorReply (-2), r.tick) := by
    intro family key
    rw [Rocks.readAt_eq]
    split <;> rfl
  have write : ∀ (contents : Contents), ∃ r',
      (Except.ok (r.writeAt contents) : Outcome (Value × Rocks)) =
        .ok (errorReply (if r.serves then 0 else -2), r') := by
    intro contents
    obtain ⟨r', h⟩ := r.writeAt_eq contents
    exact ⟨r', congrArg Except.ok h⟩
  have nofetch : ∀ {command : Command}, command.addressed c = none →
      command.fetched c r.contents r.serves = none := by
    intro command h
    unfold Command.fetched
    rw [h]
    split <;> rfl
  cases command with
  | put key value =>
    rw [nofetch rfl]
    exact write _
  | putCf column key value =>
    rw [nofetch rfl]
    dsimp only [Command.code]
    by_cases hmem : column ∈ c.cfNames
    · rw [if_pos hmem, if_pos hmem]; exact write _
    · rw [if_neg hmem, if_neg hmem]; exact ⟨r, rfl⟩
  | writeBatch items =>
    rw [nofetch rfl]
    exact write _
  | get key => exact ⟨r.tick, read _ _⟩
  | getCf column key =>
    by_cases hmem : column ∈ c.cfNames
    · refine ⟨r.tick, ?_⟩
      dsimp only [Command.fetched, Command.addressed, Command.code]
      simp only [if_pos hmem]
      exact read _ _
    · have haddr : (Command.getCf column key).addressed c = none := if_neg hmem
      rw [nofetch haddr]
      dsimp only [Command.code]
      rw [if_neg hmem, if_neg hmem]
      exact ⟨r, rfl⟩
  | unknown =>
    rw [nofetch rfl]
    exact ⟨r, rfl⟩

theorem returns_valueReply_iff {value : Bytes} :
    Returns (valueReply value) ↔ value.length % 2 ^ 32 ≤ Json.maxStringLength := by
  unfold valueReply Value.ofString
  split
  · next h => exact iff_of_true ⟨_, rfl⟩ h
  · next h => exact iff_of_false (not_returns_error _) h

/-! ## Requests -/

namespace World

variable {w : World}

/-- Whether the call that an operation on `c` makes is served. -/
def serves (w : World) (c : Config) : Bool :=
  w.rocks.answers (w.rocks.calls + c.openCalls w.rocks) = .serve

/-- What becomes of a request that finds its database. -/
theorem request_cases (hw : w.Inv) {name : Bytes} (command : Outcome Command) (hname : name ≠ [])
    {i : Nat} {c : Config} (hfind : w.find? name = some (i, c)) :
    (¬ c.OpenReturns w.rocks ∧ ¬ Returns (w.request name command)) ∨
    (c.OpenReturns w.rocks ∧ ¬ c.Opens w.rocks ∧
      ∃ w', w.request name command = .ok (errorReply 4, w')) ∨
    (c.OpenReturns w.rocks ∧ c.Opens w.rocks ∧ ∃ w' : World,
      w.request name command = do
        let command ← command
        match command.fetched c w.rocks.contents (w.serves c) with
        | some value => return (← valueReply value, w')
        | none => return (errorReply (command.code c (w.serves c)), w')) := by
  obtain ⟨hi, -, -⟩ := find?_eq_some hfind
  obtain ⟨hret, hend⟩ := Config.open_answers c w.rocks
  rw [request_of_find hname hfind, ← hret]
  cases ho : c.open w.rocks with
  | error f => exact .inl ⟨not_returns_error _, not_returns_error _⟩
  | ok p =>
    obtain ⟨⟨reply, c'⟩, r'⟩ := p
    obtain ⟨hopens, hcalls⟩ := hend reply c' r' ho
    have H := Config.open_effect ho
    refine .inr ?_
    rw [ok_bind]
    dsimp only
    cases hopen : c'.isOpen with
    | false =>
      refine .inl ⟨returns_ok _, fun h => ?_, ?_⟩
      · rw [hopens.mpr h] at hopen; cases hopen
      · rcases H.outcome with ⟨ho', -, rfl, -⟩ | ⟨-, ho', -⟩ | ⟨-, -, rfl, -⟩
        · rw [hopen] at ho'; cases ho'
        · rw [hopen] at ho'; cases ho'
        · exact ⟨_, rfl⟩
    | true =>
      refine .inr ⟨returns_ok _, hopens.mp hopen, ?_⟩
      have hw' := hw.open hi ho
      have hset : (w.configs.set i c')[i]? = some c' :=
        List.getElem?_set_self (List.getElem?_eq_some_iff.mp hi).1
      obtain ⟨id, hid⟩ := hw'.opened hset hopen
      obtain ⟨-, hpath, -, hnames, -⟩ := Config.settings_eq_iff.mp H.settings
      have hserves : r'.serves = w.serves c := by
        simp only [Rocks.serves, World.serves, H.data.answers, hcalls]
      have hfetched : ∀ command : Command, command.fetched c' r'.contents r'.serves =
          command.fetched c w.rocks.contents (w.serves c) := by
        intro command
        have haddr : command.addressed c' = command.addressed c := by
          unfold Command.addressed
          rw [hnames]
        unfold Command.fetched
        rw [haddr, H.data.contents, hserves, hpath]
      have hcode : ∀ command : Command, command.code c' r'.serves = command.code c (w.serves c) := by
        intro command
        unfold Command.code
        rw [hnames, hserves]
      cases command with
      | error f => exact ⟨w, rfl⟩
      | ok command =>
        obtain ⟨r'', hr⟩ := runCommand_reply hid (hw'.aligned hset) command
        rw [hfetched, hcode] at hr
        refine ⟨⟨w.configs.set i c', r''⟩, ?_⟩
        simp only [if_true, ok_bind, hr]
        cases command.fetched c w.rocks.contents (w.serves c) with
        | some value => dsimp only; cases valueReply value <;> rfl
        | none => rfl

/-- The states between the requests to a process that has read its config file. -/
def Reachable (w : World) : Prop :=
  ∃ (file : Bytes) (configs : List Config) (rocks : Rocks) (inps : List Bytes)
    (replies : List Value), readConfigs rocks.api file = .ok (some configs) ∧
      (rocks.live = fun _ => none) ∧ run execReply inps ⟨configs, rocks⟩ = .ok (replies, w)

theorem Reachable.inv (h : w.Reachable) : w.Inv := by
  obtain ⟨file, configs, rocks, inps, replies, hread, hlive, hrun⟩ := h
  exact run_invariant (I := World.Inv) (A := fun _ => True) (fun _ hw h => (hw.execReply h).1)
    (fun _ _ => trivial) (.start (readConfigs_start hread) hlive) hrun

end World

/-! ## Payloads -/

/-- An object with a code. -/
def IsReply (v : Value) : Prop :=
  ∃ ms code, v = .object ms ∧ OrdMap.find? ms (ascii "error") = some (.int code)

theorem errorReply_isReply (code : Int) : IsReply (errorReply code) := ⟨_, code, rfl, rfl⟩

theorem valueReply_eq {value : Bytes} {reply : Value} (h : valueReply value = .ok reply) :
    ∃ s : Json.JString, s.bytes = value.take (value.length % 2 ^ 32) ∧
      reply = .object [(ascii "error", .int 0), (ascii "value", .string s)] := by
  obtain ⟨v, hv, h⟩ := bind_eq_ok.mp h
  unfold Value.ofString at hv
  split at hv
  case isFalse => cases hv
  cases hv
  cases h
  exact ⟨_, rfl, rfl⟩

theorem valueReply_isReply {value : Bytes} {reply : Value} (h : valueReply value = .ok reply) :
    IsReply reply := by
  obtain ⟨s, -, rfl⟩ := valueReply_eq h
  exact ⟨_, 0, rfl, rfl⟩

theorem quoted_error : valueToQuotedStringN (ascii "error") = ascii "\"error\"" := by decide

theorem write_errorReply (code : Int) :
    Json.FastWriter.write (errorReply code) =
      ascii "\x7b\"error\":" ++ Json.intToString code ++ ascii "\x7d\n" := by
  have hopen : ascii "\x7b\"error\":" = 0x7b :: ascii "\"error\"" ++ [0x3a] := by decide
  have hclose : ascii "\x7d\n" = [0x7d, 0x0a] := by decide
  simp [errorReply, Json.FastWriter.write, Json.FastWriter.writeValue, Json.FastWriter.writeMembers,
    quoted_error, hopen, hclose]

theorem write_valueReply {value : Bytes} {reply : Value} (h : valueReply value = .ok reply) :
    Json.FastWriter.write reply = ascii "\x7b\"error\":0,\"value\":" ++
      valueToQuotedStringN (value.take (value.length % 2 ^ 32)) ++ ascii "\x7d\n" := by
  obtain ⟨s, hs, rfl⟩ := valueReply_eq h
  have hvalue : valueToQuotedStringN (ascii "value") = ascii "\"value\"" := by decide
  have hzero : Json.intToString 0 = [0x30] := by decide
  have hopen : ascii "\x7b\"error\":0,\"value\":" =
      0x7b :: ascii "\"error\"" ++ [0x3a, 0x30, 0x2c] ++ ascii "\"value\"" ++ [0x3a] := by decide
  have hclose : ascii "\x7d\n" = [0x7d, 0x0a] := by decide
  simp [Json.FastWriter.write, Json.FastWriter.writeValue, Json.FastWriter.writeMembers,
    quoted_error, hvalue, hzero, hs, hopen, hclose]

/-- Neither the payload nor the state makes `exec_json` throw or fail an assertion. -/
structure Answerable (w : World) (inp : Bytes) : Prop where
  limits : Json.WithinLimits inp
  /-- The root is null or an object. -/
  root : ∀ root, Json.parseFromStream inp = .ok (.ok root) → root.isObjectLike = true
  name : ∀ root, Json.parseFromStream inp = .ok (.ok root) →
    (root.member (ascii "dbname")).isStringLike = true
  /-- What the payload asks of a configured database. -/
  database : ∀ root name i c, Json.parseFromStream inp = .ok (.ok root) →
    (root.member (ascii "dbname")).asString = .ok name → name ≠ [] → w.find? name = some (i, c) →
    c.OpenReturns w.rocks ∧ (c.Opens w.rocks → WellTyped root ∧
      ∀ command value, commandOf root = .ok command →
        command.fetched c w.rocks.contents (w.serves c) = some value →
        value.length % 2 ^ 32 ≤ Json.maxStringLength)

theorem request_returns_iff {w : World} (hw : w.Inv) {root : Value} (hwf : root.WellFormed)
    {name : Bytes} (hname : name ≠ []) {i : Nat} {c : Config} (hfind : w.find? name = some (i, c)) :
    Returns (w.request name (commandOf root)) ↔
      c.OpenReturns w.rocks ∧ (c.Opens w.rocks → WellTyped root ∧
        ∀ command value, commandOf root = .ok command →
          command.fetched c w.rocks.contents (w.serves c) = some value →
          value.length % 2 ^ 32 ≤ Json.maxStringLength) := by
  rcases World.request_cases hw (commandOf root) hname hfind with
    ⟨hret, hnot⟩ | ⟨hret, hopens, w', h⟩ | ⟨hret, hopens, w', h⟩
  · exact iff_of_false hnot fun h => hret h.1
  · rw [h]
    exact iff_of_true (returns_ok _) ⟨hret, fun h => absurd h hopens⟩
  · rw [h, ← returns_commandOf_iff hwf]
    cases commandOf root with
    | error f =>
      exact iff_of_false (not_returns_error _) fun h => not_returns_error _ (h.2 hopens).1
    | ok command =>
      simp only [ok_bind, hret, hopens, true_and, true_imp_iff, returns_ok, Except.ok.injEq]
      cases hf : command.fetched c w.rocks.contents (w.serves c) with
      | none =>
        refine iff_of_true (returns_ok _) fun command' value hc hv => ?_
        rw [← hc, hf] at hv
        cases hv
      | some value =>
        dsimp only
        rw [returns_bind]
        constructor
        · rintro ⟨reply, hreply, -⟩ command' value' rfl hv
          rw [hf] at hv
          cases hv
          exact returns_valueReply_iff.mp ⟨reply, hreply⟩
        · intro hfits
          obtain ⟨reply, hreply⟩ := returns_valueReply_iff.mpr (hfits command value rfl hf)
          exact ⟨reply, hreply, returns_ok _⟩

/-- `exec_json` returns exactly if the payload can be answered in the state. -/
theorem execReply_returns_iff {w : World} (hw : w.Inv) (inp : Bytes) :
    Returns (execReply inp w) ↔ Answerable w inp := by
  have hlimits := Json.parseFromStream_returns_iff inp
  rw [execReply_eq inp hw]
  cases hp : Json.parseFromStream inp with
  | error f =>
    rw [hp] at hlimits
    refine iff_of_false ?_ fun h => not_returns_error f (hlimits.mpr h.limits)
    simp [requestOf, hp]
  | ok parsed =>
    rw [hp] at hlimits
    replace hlimits := hlimits.mp (returns_ok _)
    cases parsed with
    | error message =>
      have hq : requestOf inp = .ok .rejected := by simp [requestOf, hp]
      rw [hq]
      refine iff_of_true (returns_ok _) ⟨hlimits, fun root h => ?_, fun root h => ?_,
        fun root name i c h => ?_⟩ <;> rw [hp] at h <;> cases h
    | ok root =>
      have hwf := Json.parseFromStream_wellFormed hp
      by_cases hobj : root.isObjectLike = true
      case neg =>
        refine iff_of_false ?_ fun h => hobj (h.root root hp)
        simp [requestOf, hp, hobj]
      cases hs : (root.member (ascii "dbname")).asString with
      | error f =>
        refine iff_of_false ?_ fun h => ?_
        · simp [requestOf, hp, hobj, hs]
        · exact not_returns_error f (hs ▸ Value.asString_eq_ok_iff.mpr (h.name root hp))
      | ok name =>
        have hq : requestOf inp = .ok (.named name (commandOf root)) := by
          simp [requestOf, hp, hobj, hs]
        have hname : (root.member (ascii "dbname")).isStringLike = true :=
          Value.asString_eq_ok_iff.mp ⟨name, hs⟩
        rw [hq, ok_bind]
        change Returns (w.request name (commandOf root)) ↔ _
        have hiff : Answerable w inp ↔ ∀ i c, name ≠ [] → w.find? name = some (i, c) →
            Returns (w.request name (commandOf root)) := by
          constructor
          · intro h i c hne hfind
            exact (request_returns_iff hw hwf hne hfind).mpr (h.database root name i c hp hs hne hfind)
          · intro h
            refine ⟨hlimits, fun root' hp' => ?_, fun root' hp' => ?_,
              fun root' name' i c hp' hs' hne hfind => ?_⟩ <;> cases hp.symm.trans hp'
            · exact hobj
            · exact hname
            · cases hs.symm.trans hs'
              exact (request_returns_iff hw hwf hne hfind).mp (h i c hne hfind)
        rw [hiff]
        refine ⟨fun h _ _ _ _ => h, fun h => ?_⟩
        by_cases hne : name = []
        · rw [World.request, if_pos hne]; exact returns_ok _
        cases hfind : w.find? name with
        | none => rw [World.request, if_neg hne, hfind]; exact returns_ok _
        | some p => exact h p.1 p.2 hne hfind

/-- What a payload is answered with. -/
inductive World.Replies (w : World) (inp : Bytes) : Value → Prop
  | rejected (hq : requestOf inp = .ok .rejected) : Replies w inp (errorReply 1)
  | unnamed {command : Outcome Command} (hq : requestOf inp = .ok (.named [] command)) :
    Replies w inp (errorReply 6)
  | unknown {name : Bytes} {command : Outcome Command}
    (hq : requestOf inp = .ok (.named name command)) (hname : name ≠ [])
    (hfind : w.find? name = none) : Replies w inp (errorReply 3)
  | refused {name : Bytes} {command : Outcome Command} {i : Nat} {c : Config}
    (hq : requestOf inp = .ok (.named name command)) (hname : name ≠ [])
    (hfind : w.find? name = some (i, c)) (hopens : ¬ c.Opens w.rocks) : Replies w inp (errorReply 4)
  | code {name : Bytes} {command : Command} {i : Nat} {c : Config}
    (hq : requestOf inp = .ok (.named name (.ok command))) (hname : name ≠ [])
    (hfind : w.find? name = some (i, c)) (hopens : c.Opens w.rocks)
    (hfetched : command.fetched c w.rocks.contents (w.serves c) = none) :
    Replies w inp (errorReply (command.code c (w.serves c)))
  | value {name : Bytes} {command : Command} {i : Nat} {c : Config} {value : Bytes} {reply : Value}
    (hq : requestOf inp = .ok (.named name (.ok command))) (hname : name ≠ [])
    (hfind : w.find? name = some (i, c)) (hopens : c.Opens w.rocks)
    (hfetched : command.fetched c w.rocks.contents (w.serves c) = some value)
    (hreply : valueReply value = .ok reply) : Replies w inp reply

theorem execReply_replies {w w' : World} (hw : w.Inv) {inp : Bytes} {reply : Value}
    (h : execReply inp w = .ok (reply, w')) : w.Replies inp reply := by
  rw [execReply_eq inp hw] at h
  obtain ⟨q, hq, h⟩ := bind_eq_ok.mp h
  cases q with
  | rejected => cases h; exact .rejected hq
  | named name command =>
    change w.request name command = _ at h
    by_cases hne : name = []
    · subst hne
      rw [World.request, if_pos rfl] at h
      cases h
      exact .unnamed hq
    cases hfind : w.find? name with
    | none =>
      rw [World.request, if_neg hne, hfind] at h
      cases h
      exact .unknown hq hne hfind
    | some p =>
      rcases World.request_cases hw command hne hfind with
        ⟨-, hnot⟩ | ⟨-, hopens, w'', hr⟩ | ⟨-, hopens, w'', hr⟩
      · exact absurd ⟨_, h⟩ hnot
      · cases hr.symm.trans h
        exact .refused hq hne hfind hopens
      · rw [hr] at h
        obtain ⟨command', hcommand, hanswer⟩ := bind_eq_ok.mp h
        subst hcommand
        split at hanswer
        · next hf =>
          obtain ⟨reply', hv, hanswer⟩ := bind_eq_ok.mp hanswer
          cases hanswer
          exact .value hq hne hfind hopens hf hv
        · next hf =>
          cases hanswer
          exact .code hq hne hfind hopens hf

theorem World.Replies.isReply {w : World} {inp : Bytes} {reply : Value}
    (h : w.Replies inp reply) : IsReply reply := by
  cases h with
  | value _ _ _ _ _ hreply => exact valueReply_isReply hreply
  | _ => exact errorReply_isReply _

/-- A payload brings down the service in a reachable state unless it can be answered there. -/
theorem execJson_answers_iff {w : World} (hw : w.Reachable) (inp : Bytes) :
    (∃ ms code w', execJson inp w = .ok (Json.FastWriter.write (.object ms), w') ∧
        OrdMap.find? ms (ascii "error") = some (.int code)) ↔
      Answerable w inp := by
  rw [← execReply_returns_iff hw.inv]
  constructor
  · rintro ⟨ms, code, w', h, -⟩
    obtain ⟨⟨reply, w₁⟩, h, -⟩ := bind_eq_ok.mp h
    exact ⟨_, h⟩
  · rintro ⟨⟨reply, w'⟩, h⟩
    obtain ⟨ms, code, rfl, hcode⟩ := (execReply_replies hw.inv h).isReply
    exact ⟨ms, code, w', by simp [execJson, h], hcode⟩

/-- The payload `[]` is accepted by the reader, and the service goes down. -/
theorem execJson_empty_array :
    World.Reachable ⟨[plainConfig], emptyRocks⟩ ∧
      execJson (ascii "[]") ⟨[plainConfig], emptyRocks⟩ = .error (.exception
        "in Json::Value::resolveReference(key, end): requires objectValue") := by
  have hparse : Json.parseFromStream (ascii "[]") = .ok (.ok (.array [])) :=
    Json.parseFromStream_eq (by decide +kernel)
  refine ⟨⟨plainFile, _, emptyRocks, [], [], readConfigs_plainFile, rfl, rfl⟩, ?_⟩
  unfold execJson execReply
  rw [hparse]
  rfl

/-- A `get` of a missing key is answered. -/
theorem answerable_getPayload : Answerable ⟨[plainConfig], emptyRocks⟩ getPayload := by
  have hw : World.Reachable ⟨[plainConfig], emptyRocks⟩ :=
    ⟨plainFile, [plainConfig], emptyRocks, [], [], readConfigs_plainFile, rfl, rfl⟩
  refine (execJson_answers_iff hw getPayload).mp ?_
  have h : ∃ w', execReply getPayload ⟨[plainConfig], emptyRocks⟩ = .ok (errorReply (-2), w') := by
    unfold execReply
    rw [parseFromStream_getPayload]
    exact ⟨_, rfl⟩
  obtain ⟨w', h⟩ := h
  exact ⟨_, -2, w', by rw [execJson, h]; rfl, rfl⟩

end RocksdbService
