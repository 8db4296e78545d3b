import RocksdbService.Verify.Batch
import RocksdbService.Verify.Unescaping

/-! # What is put is what is got

A string that a `put`, a `put_cf` or a `write_batch` has stored stays in RocksDB as long as nothing else
is written to its key (`Keeps`). What a client reads in the reply to a later `get` is that string exactly
if it is well-formed UTF-8 (`execJson_putGet`), since the writer replaces what it cannot read. -/

namespace RocksdbService

open Outcome
open Json (Value JString Members IsUtf8 recoded valueToQuotedStringN)

/-! ## Payloads -/

/-- The root asks to store the string under a key of a family. -/
inductive Stores (root : Value) (family key : Bytes) (s : JString) : Prop
  | put (hop : (root.member (ascii "op")).asString = .ok (ascii "put"))
    (hkey : (root.member (ascii "key")).asString = .ok key)
    (hvalue : root.member (ascii "value") = .string s)
    (hfamily : family = kDefaultColumnFamilyName)
  | putCf (hop : (root.member (ascii "op")).asString = .ok (ascii "put_cf"))
    (hcolumn : (root.member (ascii "column")).asString = .ok family)
    (hkey : (root.member (ascii "key")).asString = .ok key)
    (hvalue : root.member (ascii "value") = .string s)
  | member {items : Members} (hop : (root.member (ascii "op")).asString = .ok (ascii "write_batch"))
    (hitems : root.member (ascii "items") = .object items) (hmem : (key, .string s) ∈ items)
    (hfamily : family = kDefaultColumnFamilyName)

/-- The root asks for the value of a key of a family of the configuration. -/
inductive Fetches (root : Value) (c : Config) (family key : Bytes) : Prop
  | get (hop : (root.member (ascii "op")).asString = .ok (ascii "get"))
    (hkey : (root.member (ascii "key")).asString = .ok key)
    (hfamily : family = kDefaultColumnFamilyName)
  | getCf (hop : (root.member (ascii "op")).asString = .ok (ascii "get_cf"))
    (hcolumn : (root.member (ascii "column")).asString = .ok family)
    (hkey : (root.member (ascii "key")).asString = .ok key)
    (hmem : family ∈ c.cfNames)

theorem textOf_string (s : JString) : textOf (.string s) = .ok s := dif_pos s.fits

/-- What such a root writes. -/
theorem Stores.writes {root : Value} {family key : Bytes} {s : JString} (h : Stores root family key s)
    (hwf : root.WellFormed) {command : Command} (hcommand : commandOf root = .ok command) {c : Config}
    {p : Bytes × List (Bytes × Bytes)} (hwrites : command.writes c = some p) :
    p.1 = family ∧ (p.2.map Prod.fst).Nodup ∧ (key, s.bytes) ∈ p.2 := by
  cases h with
  | put hop hkey hvalue hfamily =>
    rw [commandOf_put hop, hkey, hvalue, textOf_string] at hcommand
    cases hcommand
    cases hwrites
    exact ⟨hfamily.symm, List.nodup_singleton _, List.mem_singleton.mpr rfl⟩
  | putCf hop hcolumn hkey hvalue =>
    rw [commandOf_putCf hop, hcolumn, hkey, hvalue, textOf_string] at hcommand
    cases hcommand
    dsimp only [Command.writes] at hwrites
    split at hwrites <;> cases hwrites
    exact ⟨rfl, List.nodup_singleton _, List.mem_singleton.mpr rfl⟩
  | @member items hop hitems hmem hfamily =>
    rw [commandOf_writeBatch hop, hitems] at hcommand
    obtain ⟨kvs, hkvs, hcommand⟩ := bind_eq_ok.mp hcommand
    cases hcommand
    cases hwrites
    have hsorted : OrdMap.Sorted items := Value.WellFormed.sorted (hitems ▸ hwf.member _)
    refine ⟨hfamily.symm, ?_, ?_⟩
    · rw [batchOf_bytes hkvs, putsOf, List.map_map]
      exact hsorted.nodup_keys
    · rw [batchOf_bytes hkvs]
      exact List.mem_map_of_mem hmem

/-- What such a root finds. -/
theorem Fetches.fetched {root : Value} {c : Config} {family key : Bytes} (h : Fetches root c family key)
    {c' : Config} (hset : c'.settings = c.settings) (contents : Contents) :
    ∃ command, commandOf root = .ok command ∧
      command.fetched c' contents true = contents c.path family key := by
  obtain ⟨-, hpath, -, hnames, -⟩ := Config.settings_eq_iff.mp hset
  cases h with
  | get hop hkey hfamily =>
    refine ⟨.get key, by rw [commandOf_get hop, hkey]; rfl, ?_⟩
    rw [hfamily, ← hpath]
    rfl
  | getCf hop hcolumn hkey hmem =>
    refine ⟨.getCf family key, by rw [commandOf_getCf hop, hcolumn, hkey]; rfl, ?_⟩
    have haddr : (Command.getCf family key).addressed c' = some (family, key) :=
      if_pos (hnames ▸ hmem)
    rw [Command.fetched, haddr, ← hpath]
    rfl

theorem Fetches.object {root : Value} {c : Config} {family key : Bytes} (h : Fetches root c family key) :
    root.isObjectLike = true := by
  cases h with
  | get hop => exact isObjectLike_of_member hop (by decide)
  | getCf hop => exact isObjectLike_of_member hop (by decide)

/-! ## Between the requests -/

namespace World

theorem SameSettings.symm {w w' : World} (h : SameSettings w w') : SameSettings w' w :=
  ⟨h.settings.symm, h.api.symm, h.answers.symm⟩

/-- The payload is a write to a key of a family at a path. -/
def Writes (w : World) (path family key : Bytes) (inp : Bytes) : Prop :=
  ∃ name command i c kvs, requestOf inp = .ok (.named name (.ok command)) ∧
    w.find? name = some (i, c) ∧ c.path = path ∧ command.writes c = some (family, kvs) ∧
      key ∈ kvs.map Prod.fst

theorem SameSettings.writes {w w' : World} (h : SameSettings w w') {path family key inp : Bytes}
    (hw : w'.Writes path family key inp) : w.Writes path family key inp := by
  obtain ⟨name, command, i, c, kvs, hq, hfind, hpath, hwrites, hmem⟩ := hw
  obtain ⟨c', hfind', hset⟩ := h.symm.find? hfind
  refine ⟨name, command, i, c', kvs, hq, hfind', ?_, ?_, hmem⟩
  · rw [(Config.settings_eq_iff.mp hset).2.1, hpath]
  · rw [command.writes_congr hset, hwrites]

/-- What a request does to the configuration that it is for. -/
theorem request_set {w w' : World} {name : Bytes} {command : Outcome Command} {reply : Value}
    (hname : name ≠ []) {i : Nat} {c : Config} (hfind : w.find? name = some (i, c))
    (h : w.request name command = .ok (reply, w')) :
    ∃ c', w'.configs = w.configs.set i c' ∧ (c'.isOpen = true ↔ c.Opens w.rocks) ∧
      (c.isOpen = true → c' = c) := by
  rw [request_of_find hname hfind] at h
  obtain ⟨⟨⟨reply₁, c'⟩, rocks⟩, ho, h⟩ := bind_eq_ok.mp h
  have hopens := ((Config.open_answers c w.rocks).2 _ _ _ ho).1
  have hsame : c.isOpen = true → c' = c := by
    intro hopen
    rcases (Config.open_effect ho).outcome with ⟨-, -, heq, -⟩ | ⟨hclosed, -⟩ | ⟨hclosed, -⟩
    · exact heq
    · rw [hopen] at hclosed; cases hclosed
    · rw [hopen] at hclosed; cases hclosed
  refine ⟨c', ?_, hopens, hsame⟩
  dsimp only at h
  split at h
  · obtain ⟨_, -, h⟩ := bind_eq_ok.mp h
    obtain ⟨⟨_, _⟩, -, h⟩ := bind_eq_ok.mp h
    cases h
    rfl
  · cases h
    rfl

/-- What is open stays open. -/
theorem execReply_isOpen {w w' : World} (hw : w.Inv) {inp : Bytes} {reply : Value}
    (h : execReply inp w = .ok (reply, w')) {i : Nat} {c : Config} (hi : w.configs[i]? = some c)
    (hopen : c.isOpen = true) : w'.configs[i]? = some c := by
  rw [execReply_eq inp hw] at h
  obtain ⟨q, -, h⟩ := bind_eq_ok.mp h
  cases q with
  | rejected => cases h; exact hi
  | named name command =>
    change w.request name command = _ at h
    by_cases hname : name = []
    · rw [World.request, if_pos hname] at h
      cases h
      exact hi
    cases hfind : w.find? name with
    | none =>
      rw [World.request, if_neg hname, hfind] at h
      cases h
      exact hi
    | some p =>
      obtain ⟨j, d⟩ := p
      obtain ⟨d', hconfigs, -, hsame⟩ := request_set hname hfind h
      obtain ⟨hj, -, -⟩ := find?_eq_some hfind
      rw [hconfigs]
      by_cases hij : j = i
      · subst hij
        cases hi.symm.trans hj
        rw [hsame hopen]
        exact List.getElem?_set_self (List.getElem?_eq_some_iff.mp hi).1
      · rw [List.getElem?_set_ne hij]
        exact hi

/-- What requests leave alone that do not write to a key. -/
structure Keeps (path family key : Bytes) (w w' : World) : Prop where
  inv : w'.Inv
  settings : SameSettings w w'
  isOpen : ∀ {i : Nat} {c : Config}, w.configs[i]? = some c → c.isOpen = true → w'.configs[i]? = some c
  value : w'.rocks.contents path family key = w.rocks.contents path family key

theorem Keeps.trans {path family key : Bytes} {w w₁ w' : World} (h : Keeps path family key w w₁)
    (h' : Keeps path family key w₁ w') : Keeps path family key w w' where
  inv := h'.inv
  settings := h.settings.trans h'.settings
  isOpen hi hopen := h'.isOpen (h.isOpen hi hopen) hopen
  value := h'.value.trans h.value

/-- A request that writes to the key is not answered with 0, if at all. -/
def Spares (w : World) (path family key : Bytes) (inp : Bytes) (reply : Value) : Prop :=
  reply = errorReply 0 → ¬ w.Writes path family key inp

theorem execReply_keeps {w w' : World} (hw : w.Inv) {path family key inp : Bytes} {reply : Value}
    (h : execReply inp w = .ok (reply, w')) (hspares : w.Spares path family key inp reply) :
    Keeps path family key w w' := by
  obtain ⟨hw', hs⟩ := hw.execReply h
  refine ⟨hw', hs, execReply_isOpen hw h, ?_⟩
  rcases execReply_contents hw h with ⟨command, c, hp, heq⟩ | ⟨-, heq⟩
  case inr => rw [heq]
  cases hserves : w.serves c with
  | false => rw [heq, hserves]; rfl
  | true =>
  rw [heq, if_pos hserves, Command.applied]
  cases hwrites : command.writes c with
  | none => rfl
  | some p =>
    obtain ⟨family', kvs⟩ := p
    refine Families.putAll_of_forall_ne fun kv hkv => ?_
    rintro ⟨rfl, rfl, rfl⟩
    obtain ⟨name, i, hq, -, hfind⟩ := hp.request
    refine hspares ?_ ⟨name, command, i, c, kvs, hq, hfind, rfl, hwrites, List.mem_map_of_mem hkv⟩
    exact hp.reply_of_writes hw h hserves hwrites

/-- What was stored is there after any requests that do not write to its key. -/
theorem run_keeps {w₀ w w' : World} (hw : w.Inv) (hs : SameSettings w₀ w) {path family key : Bytes}
    {inps : List Bytes} {replies : List Value} (h : run execReply inps w = .ok (replies, w'))
    (hspares : List.Forall₂ (w₀.Spares path family key) inps replies) :
    Keeps path family key w w' := by
  induction inps generalizing w replies with
  | nil =>
    cases h
    exact ⟨hw, .rfl, fun hi _ => hi, rfl⟩
  | cons inp inps ih =>
    obtain ⟨reply, w₁, replies', h₁, h₂, rfl⟩ := run_cons_eq_ok.mp h
    obtain ⟨hreply, hrest⟩ := List.forall₂_cons.mp hspares
    have hkeeps := execReply_keeps hw h₁ fun hzero hwrites => hreply hzero (hs.writes hwrites)
    exact hkeeps.trans (ih hkeeps.inv (hs.trans hkeeps.settings) h₂ hrest)

end World

/-! ## Replies -/

/-- The string under `value` in the text of a reply. -/
def replyValue (text : Bytes) : Option Bytes :=
  match Json.parseFromStream text with
  | .ok (.ok reply) =>
    match reply.member (ascii "value") with
    | .string s => some s.bytes
    | _ => none
  | _ => none

/-- The text of a reply with a value. -/
def valueText (s : Bytes) : Bytes :=
  ascii "\x7b\"error\":0,\"value\":" ++ valueToQuotedStringN s ++ ascii "\x7d\n"

theorem replyValue_valueText (s : Bytes) : replyValue (valueText s) =
    if (recoded s).length % 2 ^ 32 ≤ Json.maxStringLength then
      some ((recoded s).take ((recoded s).length % 2 ^ 32))
    else none := by
  unfold replyValue valueText
  rw [Json.parseFromStream_valueText]
  unfold Value.ofString
  by_cases h : (recoded s).length % 2 ^ 32 ≤ Json.maxStringLength
  · rw [dif_pos h, if_pos h]
    rfl
  · rw [dif_neg h, if_neg h]
    rfl

/-- A value comes back in a reply exactly if it is well-formed UTF-8. -/
theorem replyValue_eq_iff (s : JString) :
    replyValue (valueText s.bytes) = some s.bytes ↔ IsUtf8 s.bytes := by
  have hmod : s.bytes.length % 2 ^ 32 = s.bytes.length :=
    Nat.mod_eq_of_lt (s.fits.trans_lt (by decide))
  rw [← Json.recoded_eq_iff, replyValue_valueText]
  constructor
  · intro h
    split at h
    case isFalse => cases h
    have h := Option.some.inj h
    -- the length is cut to 32 bits, and what comes back is at most three times as long
    have hshort : (recoded s.bytes).length < 2 ^ 32 := by
      have hlen := congrArg List.length h
      rw [List.length_take, Nat.min_eq_left (Nat.mod_le _ _)] at hlen
      have hle := Json.recoded_length s.bytes
      have hfits := s.fits
      unfold Json.maxStringLength at hfits
      omega
    rwa [Nat.mod_eq_of_lt hshort, List.take_length] at h
  · intro h
    rw [h, hmod, if_pos s.fits, List.take_length]

theorem valueReply_returns (s : JString) : ∃ reply, valueReply s.bytes = .ok reply ∧
    Json.FastWriter.write reply = valueText s.bytes := by
  have hmod : s.bytes.length % 2 ^ 32 = s.bytes.length :=
    Nat.mod_eq_of_lt (s.fits.trans_lt (by decide))
  obtain ⟨reply, h⟩ : Returns (valueReply s.bytes) :=
    returns_valueReply_iff.mpr (hmod.symm ▸ s.fits)
  refine ⟨reply, h, ?_⟩
  rw [write_valueReply h, hmod, List.take_length]
  rfl

/-! ## Put and get -/

section
variable {w w' : World} {inp : Bytes} {root : Value} {c : Config} {family key : Bytes} {s : JString}

/-- What a request that stores a string leaves, if it is answered with 0. -/
theorem Stores.stored (h : Stores root family key s) (hw : w.Inv)
    (hroot : Json.parseFromStream inp = .ok (.ok root)) (hfinds : w.Finds root c)
    (hput : execReply inp w = .ok (errorReply 0, w')) :
    w'.rocks.contents c.path family key = some s.bytes ∧
      ∃ name i c', (root.member (ascii "dbname")).asString = .ok name ∧ name ≠ [] ∧
        w'.find? name = some (i, c') ∧ c'.settings = c.settings ∧ c'.isOpen = true := by
  obtain ⟨command, c', hp, hcode⟩ := (execReply_replies hw hput).performs
  obtain ⟨rfl, hcommand⟩ := hp.of_finds hroot hfinds
  obtain ⟨hserves, family', kvs, hwrites⟩ := Command.writes_of_code hcode
  constructor
  · obtain ⟨rfl, hnodup, hmem⟩ := h.writes (Json.parseFromStream_wellFormed hroot) hcommand hwrites
    rw [hp.contents hw hput, if_pos hserves, Command.applied, hwrites]
    exact Families.putAll_of_mem _ _ _ hnodup hmem
  · obtain ⟨name, i, hq, hname, hfind⟩ := hp.request
    obtain ⟨c₁, hfind₁, hset⟩ := (hw.execReply hput).2.find? hfind
    refine ⟨name, i, c₁, (requestOf_root hroot hq).1, hname, hfind₁, hset, ?_⟩
    rw [execReply_eq inp hw, hq] at hput
    obtain ⟨c₂, hconfigs, hopens, -⟩ := World.request_set hname hfind hput
    have hi := (World.find?_eq_some hfind).1
    have hself : w'.configs[i]? = some c₂ := by
      rw [hconfigs]
      exact List.getElem?_set_self (List.getElem?_eq_some_iff.mp hi).1
    cases hself.symm.trans (World.find?_eq_some hfind₁).1
    exact hopens.mpr hp.opens

/-- A request for a key of an open database is answered with its value, if RocksDB serves the call. -/
theorem Fetches.answered (h : Fetches root c family key) (hw : w.Inv)
    (hroot : Json.parseFromStream inp = .ok (.ok root)) {name : Bytes} {i : Nat} {c' : Config}
    (hdbname : (root.member (ascii "dbname")).asString = .ok name) (hname : name ≠ [])
    (hfind : w.find? name = some (i, c')) (hset : c'.settings = c.settings) (hopen : c'.isOpen = true)
    (hserves : w.rocks.serves = true) (hstored : w.rocks.contents c.path family key = some s.bytes) :
    ∃ w', execJson inp w = .ok (valueText s.bytes, w') := by
  obtain ⟨command, hcommand, hfetched⟩ := h.fetched hset w.rocks.contents
  obtain ⟨reply, hreply, htext⟩ := valueReply_returns s
  have hserved : w.serves c' = true := by
    rw [World.serves, Config.openCalls, if_pos hopen]
    exact hserves
  have hq : requestOf inp = .ok (.named name (.ok command)) := by
    rw [requestOf_eq hroot h.object, hdbname, hcommand]
    rfl
  have hrequest : ∃ w', w.request name (.ok command) = .ok (reply, w') := by
    rcases World.request_cases hw (.ok command) hname hfind with
      ⟨hnot, -⟩ | ⟨-, hnot, -⟩ | ⟨-, -, w', h⟩
    · exact absurd (.inl hopen) hnot
    · exact absurd (.inl hopen) hnot
    · refine ⟨w', ?_⟩
      rw [h, ok_bind, hserved, hfetched, hstored]
      dsimp only
      rw [hreply]
      rfl
  obtain ⟨w', hrequest⟩ := hrequest
  have hexec : execReply inp w = .ok (reply, w') := by
    rw [execReply_eq inp hw, hq]
    exact hrequest
  refine ⟨w', ?_⟩
  rw [execJson, hexec, ok_bind]
  dsimp only
  rw [htext]
  rfl

end

/-- What is put is what is got exactly if it is well-formed UTF-8. -/
theorem execJson_putGet {w w₁ w₂ : World} (hw : w.Reachable) {putInp getInp : Bytes} {put get : Value}
    {c : Config} {family key : Bytes} {s : JString} {inps : List Bytes} {replies : List Value}
    (hput : Json.parseFromStream putInp = .ok (.ok put)) (hfinds : w.Finds put c)
    (hstores : Stores put family key s) (h₁ : execReply putInp w = .ok (errorReply 0, w₁))
    (h₂ : run execReply inps w₁ = .ok (replies, w₂))
    (hspares : List.Forall₂ (w.Spares c.path family key) inps replies)
    (hget : Json.parseFromStream getInp = .ok (.ok get))
    (hdbname : (get.member (ascii "dbname")).asString = (put.member (ascii "dbname")).asString)
    (hfetches : Fetches get c family key) (hserves : w₂.rocks.serves = true) :
    w₁.rocks.contents c.path family key = some s.bytes ∧
      ∃ out w₃, execJson getInp w₂ = .ok (out, w₃) ∧
        (replyValue out = some s.bytes ↔ IsUtf8 s.bytes) := by
  obtain ⟨hw₁, hs₁⟩ := hw.inv.execReply h₁
  obtain ⟨hstored, name, i, c₁, hputName, hname, hfind₁, hset, hopen⟩ :=
    hstores.stored hw.inv hput hfinds h₁
  have hkeeps := World.run_keeps hw₁ hs₁ h₂ hspares
  obtain ⟨c₂, hfind₂, -⟩ := hkeeps.settings.find? hfind₁
  cases (hkeeps.isOpen (World.find?_eq_some hfind₁).1 hopen).symm.trans (World.find?_eq_some hfind₂).1
  obtain ⟨w₃, h₃⟩ := hfetches.answered hkeeps.inv hget (hdbname.trans hputName) hname hfind₂ hset hopen
    hserves (hkeeps.value.trans hstored)
  exact ⟨hstored, _, w₃, h₃, replyValue_eq_iff s⟩

/-- The root of a put of a string under `k`. -/
def putRoot (s : JString) : Value :=
  .object [(ascii "dbname", textValue "a"), (ascii "key", textValue "k"), (ascii "op", textValue "put"),
    (ascii "value", .string s)]

/-- A put of the characters U+00E9, U+20AC, U+1F600, U+0000 and U+0022. -/
def unicodePayload : Bytes := memberPayload "k" "\"\\u00e9\\u20ac\\ud83d\\ude00\\u0000\\\"\""

/-- A put of half of a surrogate pair. -/
def surrogatePayload : Bytes := memberPayload "k" "\"\\udc00\""

theorem putRoot_stores (s : JString) : Stores (putRoot s) kDefaultColumnFamilyName (ascii "k") s :=
  .put rfl rfl rfl rfl

theorem getPayload_fetches : ∃ get, Json.parseFromStream getPayload = .ok (.ok get) ∧
    (get.member (ascii "dbname")).asString = .ok (ascii "a") ∧
    Fetches get plainConfig kDefaultColumnFamilyName (ascii "k") :=
  ⟨_, parseFromStream_getPayload, rfl, .get rfl rfl rfl⟩

theorem plain_reachable : World.Reachable ⟨[plainConfig], emptyRocks⟩ :=
  ⟨plainFile, _, emptyRocks, [], [], readConfigs_plainFile, rfl, rfl⟩

/-- Strings can be put. -/
theorem putRoot_answered {inp : Bytes} {s : JString}
    (hparse : Json.parseFromStream inp = .ok (.ok (putRoot s))) :
    ∃ w₁, execReply inp ⟨[plainConfig], emptyRocks⟩ = .ok (errorReply 0, w₁) := by
  unfold execReply
  rw [hparse]
  exact ⟨_, rfl⟩

theorem execJson_putGet_unicode : ∃ w₁ w₂ w₃ reply out,
    execReply unicodePayload ⟨[plainConfig], emptyRocks⟩ = .ok (errorReply 0, w₁) ∧
    run execReply [memberPayload "j" "1"] w₁ = .ok ([reply], w₂) ∧
    execJson getPayload w₂ = .ok (out, w₃) ∧
    replyValue out = some [0xc3, 0xa9, 0xe2, 0x82, 0xac, 0xf0, 0x9f, 0x98, 0x80, 0, 0x22] := by
  have hparse : Json.parseFromStream unicodePayload = .ok (.ok (putRoot
      ⟨[0xc3, 0xa9, 0xe2, 0x82, 0xac, 0xf0, 0x9f, 0x98, 0x80, 0, 0x22], by decide⟩)) :=
    Json.parseFromStream_eq (by decide +kernel)
  have hutf8 : IsUtf8 [0xc3, 0xa9, 0xe2, 0x82, 0xac, 0xf0, 0x9f, 0x98, 0x80, 0, 0x22] :=
    ⟨[0xe9, 0x20ac, 0x1f600, 0, 0x22].map Char.ofNat, by decide +kernel⟩
  obtain ⟨w₁, h₁⟩ := putRoot_answered hparse
  obtain ⟨hw₁, hs₁⟩ := plain_reachable.inv.execReply h₁
  have hother : PutsMember (putRoot ⟨[], by decide⟩) (memberPayload "j" "1") (ascii "j", .int 1) :=
    memberPayload_puts "j" "1" (by decide +kernel) rfl rfl
  obtain ⟨c₁, hfind₁, -⟩ := hs₁.find? (show World.find? _ (ascii "a") = some (0, plainConfig) from rfl)
  have hfinds₁ : w₁.Finds (putRoot ⟨[], by decide⟩) c₁ := ⟨ascii "a", 0, rfl, by decide, hfind₁⟩
  obtain ⟨replies, w₂, h₂, -⟩ := run_puts_returns hw₁ (fun k => by rw [hs₁.answers]; rfl) hfinds₁
    (.cons hother .nil) (List.forall_mem_singleton.mpr rfl)
  obtain ⟨reply, w₂', replies', hput, hnil, rfl⟩ := run_cons_eq_ok.mp h₂
  cases hnil
  have hs₂ := (hw₁.execReply hput).2
  obtain ⟨get, hget, hname, hfetches⟩ := getPayload_fetches
  have hspares : World.Spares ⟨[plainConfig], emptyRocks⟩ (ascii "p") kDefaultColumnFamilyName (ascii "k")
      (memberPayload "j" "1") reply := by
    rintro - ⟨name, command, i, c, kvs, hq, -, -, hwrites, hmem⟩
    rw [hother.requestOf_eq rfl] at hq
    cases hq
    cases hwrites
    exact absurd hmem (by decide)
  obtain ⟨-, out, w₃, h₃, hiff⟩ := execJson_putGet plain_reachable hparse
    ⟨ascii "a", 0, rfl, by decide, rfl⟩ (putRoot_stores _) h₁ h₂ (.cons hspares .nil) hget hname hfetches
    (decide_eq_true (by rw [hs₂.answers, hs₁.answers]; rfl))
  exact ⟨w₁, w₂, w₃, reply, out, h₁, h₂, h₃, hiff.mpr hutf8⟩

/-- Half of a surrogate pair comes back as the replacement character. -/
theorem execJson_put_surrogate : ∃ put s w₁ out w₂, World.Reachable ⟨[plainConfig], emptyRocks⟩ ∧
    Json.parseFromStream surrogatePayload = .ok (.ok put) ∧
    Stores put kDefaultColumnFamilyName (ascii "k") s ∧
    execReply surrogatePayload ⟨[plainConfig], emptyRocks⟩ = .ok (errorReply 0, w₁) ∧
    w₁.rocks.contents plainConfig.path kDefaultColumnFamilyName (ascii "k") = some s.bytes ∧
    execJson getPayload w₁ = .ok (out, w₂) ∧
    s.bytes = [0xed, 0xb0, 0x80] ∧ replyValue out = some [0xef, 0xbf, 0xbd] := by
  have hparse : Json.parseFromStream surrogatePayload =
      .ok (.ok (putRoot ⟨[0xed, 0xb0, 0x80], by decide⟩)) :=
    Json.parseFromStream_eq (by decide +kernel)
  have hstores := putRoot_stores ⟨[0xed, 0xb0, 0x80], by decide⟩
  obtain ⟨w₁, h₁⟩ := putRoot_answered hparse
  obtain ⟨hw₁, hs₁⟩ := plain_reachable.inv.execReply h₁
  obtain ⟨hstored, name, i, c₁, hdbname, hname, hfind₁, hset, hopen⟩ :=
    hstores.stored plain_reachable.inv hparse ⟨ascii "a", 0, rfl, by decide, rfl⟩ h₁
  obtain ⟨get, hget, hgetName, hfetches⟩ := getPayload_fetches
  have hserves : w₁.rocks.serves = true := decide_eq_true (by rw [hs₁.answers]; rfl)
  obtain ⟨w₂, h₂⟩ := hfetches.answered hw₁ hget (hgetName.trans hdbname) hname hfind₁ hset hopen hserves
    hstored
  refine ⟨_, _, w₁, _, w₂, plain_reachable, hparse, hstores, h₁, hstored, h₂, rfl, ?_⟩
  rw [replyValue_valueText]
  decide +kernel

end RocksdbService
