import RocksdbService.Verify.Effects
import RocksdbService.Verify.Leaving
import RocksdbService.Verify.TextOrder

/-! # Batches

A `write_batch` makes of the stores what one `put` for each member of its `items`, in the order of the
text, makes of them (`writeBatch_agrees`). The parser has collected the members in an ordered map before,
which neither the order of different names nor an overwritten value can tell. -/

namespace RocksdbService

open Outcome
open Json (Value JString Members)

/-! ## Conversions -/

/-- The text that a value converts to. -/
def textBytes (v : Value) : Bytes :=
  match v.asString with
  | .ok s => s
  | .error _ => []

theorem textBytes_eq {v : Value} {s : Bytes} (h : v.asString = .ok s) : textBytes v = s := by
  rw [textBytes, h]

theorem textOf_bytes {v : Value} {t : JString} (h : textOf v = .ok t) : t.bytes = textBytes v := by
  obtain ⟨s, hs, h⟩ := bind_eq_ok.mp h
  split at h <;> cases h
  exact (textBytes_eq hs).symm

/-- The pairs that a batch puts. -/
def putsOf (items : List (Bytes × Value)) : List (Bytes × Bytes) :=
  items.map (Prod.map id textBytes)

theorem batchOf_bytes {ms : Members} {kvs : List (Bytes × JString)}
    (h : batchOf (.object ms) = .ok kvs) : batchBytes kvs = putsOf ms := by
  unfold batchOf at h
  dsimp only at h
  induction ms generalizing kvs with
  | nil => cases h; rfl
  | cons p ms ih =>
    rw [List.mapM_cons] at h
    obtain ⟨kv, hkv, h⟩ := bind_eq_ok.mp h
    obtain ⟨kvs', hkvs, h⟩ := bind_eq_ok.mp h
    cases h
    obtain ⟨t, ht, hkv⟩ := bind_eq_ok.mp hkv
    cases hkv
    have ih := ih hkvs
    unfold batchBytes putsOf at ih ⊢
    rw [List.map_cons, List.map_cons, ih]
    exact congrArg (· :: _) (Prod.ext rfl (textOf_bytes ht))

theorem batchable_scalars {items : List (Bytes × Value)}
    (hscalar : ∀ p ∈ items, p.2.isStringLike = true) :
    Batchable (.object (OrdMap.insertAll [] items)) := by
  refine ⟨rfl, fun p hp => ?_⟩
  rcases OrdMap.mem_insertAll hp with hp | hp
  · cases hp
  · exact hscalar p hp

/-- What the batch of the collected members puts is what the members put one after another. -/
theorem putAll_batch (contents : Contents) (path family : Bytes) {items : List (Bytes × Value)}
    {kvs : List (Bytes × JString)}
    (h : batchOf (.object (OrdMap.insertAll [] items)) = .ok kvs) :
    contents.putAll path family (batchBytes kvs) = contents.putAll path family (putsOf items) := by
  rw [batchOf_bytes h, putsOf, OrdMap.map_insertAll]
  exact Families.putAll_insertAll contents path family .nil _

/-! ## Requests -/

namespace World

/-- The request with this root comes to the configured database `c`. -/
def Finds (w : World) (root : Value) (c : Config) : Prop :=
  ∃ name i, (root.member (ascii "dbname")).asString = .ok name ∧ name ≠ [] ∧
    w.find? name = some (i, c)

/-- The request with this root comes to `c`, which is open when it is due. -/
structure Comes (w : World) (root : Value) (c : Config) : Prop where
  finds : w.Finds root c
  returns : c.OpenReturns w.rocks
  opens : c.Opens w.rocks

theorem Comes.performs {w : World} {inp : Bytes} {root : Value} {c : Config} (h : w.Comes root c)
    (hroot : Json.parseFromStream inp = .ok (.ok root)) {command : Command} {op : Bytes}
    (hop : (root.member (ascii "op")).asString = .ok op) (hne : op ≠ [])
    (hcommand : commandOf root = .ok command) : w.Performs inp command c := by
  obtain ⟨name, i, hs, hname, hfind⟩ := h.finds
  refine ⟨⟨name, i, ?_, hname, hfind⟩, h.opens⟩
  rw [requestOf_eq hroot (isObjectLike_of_member hop hne), hs, hcommand]
  rfl

theorem Performs.of_finds {w : World} {inp : Bytes} {root : Value} {command : Command} {c c' : Config}
    (h : w.Performs inp command c') (hroot : Json.parseFromStream inp = .ok (.ok root))
    (hfinds : w.Finds root c) : c' = c ∧ commandOf root = .ok command := by
  obtain ⟨name, i, hq, -, hfind⟩ := h.request
  obtain ⟨name', i', hname', -, hfind'⟩ := hfinds
  obtain ⟨hname, hcommand⟩ := requestOf_root hroot hq
  cases hname.symm.trans hname'
  cases hfind.symm.trans hfind'
  exact ⟨rfl, hcommand⟩

end World

theorem errorReply_inj {a b : Int} (h : errorReply a = errorReply b) : a = b := by
  simpa [errorReply] using h

/-- Only an operation on an open database is answered with the code 0. -/
theorem World.Replies.performs {w : World} {inp : Bytes} (h : w.Replies inp (errorReply 0)) :
    ∃ command c, w.Performs inp command c ∧ command.code c (w.serves c) = 0 := by
  generalize hreply : errorReply 0 = reply at h
  cases h with
  | rejected => exact absurd (errorReply_inj hreply) (by decide)
  | unnamed => exact absurd (errorReply_inj hreply) (by decide)
  | unknown => exact absurd (errorReply_inj hreply) (by decide)
  | refused => exact absurd (errorReply_inj hreply) (by decide)
  | code hq hname hfind hopens =>
    exact ⟨_, _, ⟨⟨_, _, hq, hname, hfind⟩, hopens⟩, (errorReply_inj hreply).symm⟩
  | value _ _ _ _ _ hvalue =>
    obtain ⟨s, -, heq⟩ := valueReply_eq hvalue
    rw [← hreply] at heq
    cases heq

section
variable {w w' : World} {inp : Bytes} {root : Value} {c : Config}

/-- A batch that can be converted comes to RocksDB. -/
theorem writeBatch_performs (hw : w.Inv) (hroot : Json.parseFromStream inp = .ok (.ok root))
    (hop : (root.member (ascii "op")).asString = .ok (ascii "write_batch")) (hcomes : w.Comes root c)
    (hbatch : Batchable (root.member (ascii "items"))) :
    ∃ kvs, batchOf (root.member (ascii "items")) = .ok kvs ∧ w.Performs inp (.writeBatch kvs) c ∧
      ∃ w', execReply inp w = .ok (errorReply (if w.serves c then 0 else -2), w') := by
  have hwf := (Json.parseFromStream_wellFormed hroot).member (ascii "items")
  obtain ⟨kvs, hkvs⟩ := (returns_batchOf_iff hwf).mpr hbatch
  have hcommand : commandOf root = .ok (.writeBatch kvs) := by
    rw [commandOf_writeBatch hop, hkvs]
    rfl
  have hp := hcomes.performs hroot hop (by decide) hcommand
  refine ⟨kvs, hkvs, hp, hp.returns hw hcomes.returns ?_⟩
  unfold Command.fetched
  split <;> rfl

/-- A batch that is answered with 0 has been converted and served. -/
theorem writeBatch_of_zero (hw : w.Inv) (hroot : Json.parseFromStream inp = .ok (.ok root))
    (hop : (root.member (ascii "op")).asString = .ok (ascii "write_batch"))
    (h : execReply inp w = .ok (errorReply 0, w')) :
    ∃ c kvs, batchOf (root.member (ascii "items")) = .ok kvs ∧
      w.Performs inp (.writeBatch kvs) c ∧ w.serves c = true := by
  obtain ⟨command, c, hp, hcode⟩ := (execReply_replies hw h).performs
  obtain ⟨name, i, hq, -⟩ := hp.request
  have hcommand := (requestOf_root hroot hq).2
  rw [commandOf_writeBatch hop] at hcommand
  obtain ⟨kvs, hkvs, hcommand⟩ := bind_eq_ok.mp hcommand
  cases hcommand
  exact ⟨c, kvs, hkvs, hp, (Command.writes_of_code hcode).1⟩

theorem items_eq (hroot : Json.parseFromStream inp = .ok (.ok root)) {items : List (Bytes × Value)}
    (hitems : Json.itemsOf inp = some items) :
    root.member (ascii "items") = .object (OrdMap.insertAll [] items) := by
  rcases Json.itemsOf_eq hroot with ⟨items', hitems', h⟩ | ⟨hnone, -⟩
  · cases hitems.symm.trans hitems'
    exact h
  · cases hitems.symm.trans hnone

/-- What a batch that is answered with 0 makes of the stores. -/
theorem writeBatch_contents (hw : w.Inv) (hroot : Json.parseFromStream inp = .ok (.ok root))
    (hop : (root.member (ascii "op")).asString = .ok (ascii "write_batch")) (hfinds : w.Finds root c)
    {items : List (Bytes × Value)} (hitems : Json.itemsOf inp = some items)
    (h : execReply inp w = .ok (errorReply 0, w')) :
    w'.rocks.contents =
      w.rocks.contents.putAll c.path kDefaultColumnFamilyName (putsOf items) := by
  obtain ⟨c', kvs, hkvs, hp, hserves⟩ := writeBatch_of_zero hw hroot hop h
  obtain rfl := (hp.of_finds hroot hfinds).1
  rw [items_eq hroot hitems] at hkvs
  rw [hp.contents hw h, if_pos hserves, ← putAll_batch _ _ _ hkvs]
  rfl

end

/-! ## Puts of the members -/

/-- The payload is a put of one member into the database that a root names. -/
def PutsMember (root : Value) (payload : Bytes) (member : Bytes × Value) : Prop :=
  ∃ put, Json.parseFromStream payload = .ok (.ok put) ∧
    (put.member (ascii "dbname")).asString = (root.member (ascii "dbname")).asString ∧
    (put.member (ascii "op")).asString = .ok (ascii "put") ∧
    (put.member (ascii "key")).asString = .ok member.1 ∧ put.member (ascii "value") = member.2

theorem PutsMember.requestOf_eq {root : Value} {payload name : Bytes} {member : Bytes × Value}
    (h : PutsMember root payload member) (hname : (root.member (ascii "dbname")).asString = .ok name) :
    requestOf payload = .ok (.named name (do return .put member.1 (← textOf member.2))) := by
  obtain ⟨put, hput, hdbname, hop, hkey, hvalue⟩ := h
  rw [RocksdbService.requestOf_eq hput (isObjectLike_of_member hop (by decide)), hdbname, hname,
    commandOf_put hop, hkey, hvalue]
  rfl

/-- A put that is answered with 0 has put its member. -/
theorem PutsMember.contents {w w' : World} (hw : w.Inv) {root : Value} {c : Config}
    (hfinds : w.Finds root c) {payload : Bytes} {member : Bytes × Value}
    (hput : PutsMember root payload member) (h : execReply payload w = .ok (errorReply 0, w')) :
    w'.rocks.contents =
      w.rocks.contents.put c.path kDefaultColumnFamilyName member.1 (textBytes member.2) := by
  obtain ⟨name, i, hname, -, hfind⟩ := hfinds
  obtain ⟨command, c', hp, hcode⟩ := (execReply_replies hw h).performs
  obtain ⟨name', i', hq, -, hfind'⟩ := hp.request
  rw [hput.requestOf_eq hname] at hq
  cases hcommand : (do return .put member.1 (← textOf member.2) : Outcome Command) with
  | error e => rw [hcommand] at hq; cases hq
  | ok command' =>
  rw [hcommand] at hq
  cases hq
  cases hfind.symm.trans hfind'
  obtain ⟨t, ht, hcommand⟩ := bind_eq_ok.mp hcommand
  cases hcommand
  rw [hp.contents hw h, if_pos (Command.writes_of_code hcode).1, ← textOf_bytes ht]
  rfl

theorem run_puts {w w' : World} (hw : w.Inv) {root : Value} {c : Config} (hfinds : w.Finds root c)
    {payloads : List Bytes} {items : List (Bytes × Value)}
    (hputs : List.Forall₂ (PutsMember root) payloads items) {replies : List Value}
    (h : run execReply payloads w = .ok (replies, w')) (hok : ∀ reply ∈ replies, reply = errorReply 0) :
    w'.rocks.contents =
      w.rocks.contents.putAll c.path kDefaultColumnFamilyName (putsOf items) := by
  induction hputs generalizing w c replies with
  | nil => cases h; rfl
  | @cons payload member payloads items hput _ ih =>
    obtain ⟨reply, w₁, replies', h₁, h₂, rfl⟩ := run_cons_eq_ok.mp h
    obtain ⟨hreply, hok'⟩ := List.forall_mem_cons.mp hok
    subst hreply
    obtain ⟨hw₁, hs⟩ := hw.execReply h₁
    obtain ⟨name, i, hname, hne, hfind⟩ := hfinds
    obtain ⟨c₁, hfind₁, hset⟩ := hs.find? hfind
    obtain ⟨-, hpath, -⟩ := Config.settings_eq_iff.mp hset
    rw [ih hw₁ ⟨name, i, hname, hne, hfind₁⟩ h₂ hok', hpath,
      hput.contents hw ⟨name, i, hname, hne, hfind⟩ h₁]
    rfl

/-- The puts are answered with 0 when RocksDB serves every call. -/
theorem run_puts_returns {w : World} (hw : w.Inv) (hserve : ∀ k, w.rocks.answers k = .serve)
    {root : Value} {c : Config} (hfinds : w.Finds root c) {payloads : List Bytes}
    {items : List (Bytes × Value)} (hputs : List.Forall₂ (PutsMember root) payloads items)
    (hscalar : ∀ p ∈ items, p.2.isStringLike = true) :
    ∃ replies w', run execReply payloads w = .ok (replies, w') ∧
      ∀ reply ∈ replies, reply = errorReply 0 := by
  induction hputs generalizing w c with
  | nil => exact ⟨[], w, rfl, nofun⟩
  | @cons payload member payloads items hput _ ih =>
    obtain ⟨hmember, hscalar⟩ := List.forall_mem_cons.mp hscalar
    obtain ⟨name, i, hname, hne, hfind⟩ := hfinds
    obtain ⟨put, hparse, -, -, -, hvalue⟩ := id hput
    have hwf := (Json.parseFromStream_wellFormed hparse).member (ascii "value")
    rw [hvalue] at hwf
    obtain ⟨t, ht⟩ := (returns_textOf_iff hwf).mpr hmember
    have hq := hput.requestOf_eq hname
    rw [ht] at hq
    have hp : w.Performs payload (.put member.1 t) c := ⟨⟨name, i, hq, hne, hfind⟩, .inr (hserve _)⟩
    obtain ⟨w₁, h₁⟩ := hp.returns hw (.inr fun _ _ => hserve _) (by unfold Command.fetched; split <;> rfl)
    have hserves : w.serves c = true := decide_eq_true (hserve _)
    rw [Command.code, if_pos hserves] at h₁
    obtain ⟨hw₁, hs⟩ := hw.execReply h₁
    obtain ⟨c₁, hfind₁, -⟩ := hs.find? hfind
    obtain ⟨replies, w', h, hok⟩ :=
      ih hw₁ (fun k => by rw [hs.answers]; exact hserve k) ⟨name, i, hname, hne, hfind₁⟩ hscalar
    exact ⟨_, w', run_cons_eq_ok.mpr ⟨_, w₁, replies, h₁, h, rfl⟩, List.forall_mem_cons.mpr ⟨rfl, hok⟩⟩

/-! ## Batches -/

/-- `w'` is what the members of a batch, in the order of the text, make of `w`. -/
structure AsPuts (w : World) (root : Value) (c : Config) (items : List (Bytes × Value)) (w' : World) :
    Prop where
  /-- Puts of the members, one after another, give the same stores. -/
  puts : ∀ payloads replies w'', List.Forall₂ (PutsMember root) payloads items →
    run execReply payloads w = .ok (replies, w'') → (∀ reply ∈ replies, reply = errorReply 0) →
    w''.rocks.contents = w'.rocks.contents
  /-- They are answered with 0 if RocksDB serves every call. -/
  returns : ∀ payloads, List.Forall₂ (PutsMember root) payloads items →
    (∀ k, w.rocks.answers k = .serve) → ∃ replies w'', run execReply payloads w = .ok (replies, w'') ∧
      ∀ reply ∈ replies, reply = errorReply 0
  last : ∀ before key value after s, items = before ++ (key, value) :: after →
    key ∉ after.map Prod.fst → value.asString = .ok s →
    w'.rocks.contents c.path kDefaultColumnFamilyName key = some s
  others : ∀ path family key,
    ¬ (path = c.path ∧ family = kDefaultColumnFamilyName ∧ key ∈ items.map Prod.fst) →
    w'.rocks.contents path family key = w.rocks.contents path family key
  /-- A batch with the members in another order gives the same stores. -/
  reorder : ∀ inp' root' items' w'', Json.parseFromStream inp' = .ok (.ok root') →
    (root'.member (ascii "dbname")).asString = (root.member (ascii "dbname")).asString →
    (root'.member (ascii "op")).asString = .ok (ascii "write_batch") →
    Json.itemsOf inp' = some items' → items.Perm items' → (items.map Prod.fst).Nodup →
    execReply inp' w = .ok (errorReply 0, w'') → w''.rocks.contents = w'.rocks.contents

theorem AsPuts.of_contents {w w' : World} (hw : w.Inv) {root : Value} {c : Config}
    (hfinds : w.Finds root c) {items : List (Bytes × Value)}
    (hscalar : ∀ p ∈ items, p.2.isStringLike = true)
    (h : w'.rocks.contents =
      w.rocks.contents.putAll c.path kDefaultColumnFamilyName (putsOf items)) :
    AsPuts w root c items w' where
  puts payloads replies w'' hputs hrun hok := by rw [h, run_puts hw hfinds hputs hrun hok]
  returns payloads hputs hserve := run_puts_returns hw hserve hfinds hputs hscalar
  last before key value after s heq hafter hs := by
    have hkeys : key ∉ (putsOf after).map Prod.fst := by
      rw [putsOf, List.map_map]
      exact hafter
    subst heq
    have hputs : putsOf (before ++ (key, value) :: after) =
        putsOf before ++ (key, s) :: putsOf after := by
      rw [← textBytes_eq hs]
      exact List.map_append
    rw [h, hputs, Families.putAll_last _ _ _ _ hkeys]
  others path family key hne := by
    rw [h]
    refine Families.putAll_of_forall_ne fun kv hkv => ?_
    rintro ⟨rfl, rfl, rfl⟩
    obtain ⟨p, hp, rfl⟩ := List.mem_map.mp hkv
    exact hne ⟨rfl, rfl, List.mem_map_of_mem hp⟩
  reorder inp' root' items' w'' hroot' hdbname hop' hitems' hperm hnodup h' := by
    have hfinds' : w.Finds root' c := by
      obtain ⟨name, i, hname, hfind⟩ := hfinds
      exact ⟨name, i, hdbname.trans hname, hfind⟩
    have hkeys : ((putsOf items).map Prod.fst).Nodup := by
      rw [putsOf, List.map_map]
      exact hnodup
    rw [writeBatch_contents hw hroot' hop' hfinds' hitems' h', h]
    exact (Families.putAll_perm _ _ _ (hperm.map _) hkeys).symm

/-- What a `write_batch` request comes to. -/
structure BatchAgrees (w : World) (inp : Bytes) (root : Value) : Prop where
  /-- Items that are an object have their members in the text. -/
  members : ∀ ms, root.member (ascii "items") = .object ms → ∃ items, Json.itemsOf inp = some items
  served : ∀ c items, w.Comes root c → w.serves c = true → Json.itemsOf inp = some items →
    (∀ p ∈ items, p.2.isStringLike = true) →
    ∃ w', execReply inp w = .ok (errorReply 0, w') ∧ AsPuts w root c items w'
  empty : ∀ c, w.Comes root c → w.serves c = true →
    root.member (ascii "items") = .null ∨ root.member (ascii "items") = .object [] →
    ∃ w', execReply inp w = .ok (errorReply 0, w') ∧ w'.rocks.contents = w.rocks.contents
  refused : ∀ c, w.Comes root c → w.serves c = false → Batchable (root.member (ascii "items")) →
    ∃ w', execReply inp w = .ok (errorReply (-2), w') ∧ w'.rocks.contents = w.rocks.contents
  /-- An exception leaves the stores as they were. -/
  unconvertible : ¬ Batchable (root.member (ascii "items")) →
    (execReplyLeaving inp).Leaves w fun outcome w' =>
      outcome ≠ .ok (errorReply 0) ∧ w'.rocks.contents = w.rocks.contents
  leaving : (execReplyLeaving inp).result w = execReply inp w

theorem writeBatch_agrees {w : World} (hw : w.Reachable) {inp : Bytes} {root : Value}
    (hroot : Json.parseFromStream inp = .ok (.ok root))
    (hop : (root.member (ascii "op")).asString = .ok (ascii "write_batch")) :
    BatchAgrees w inp root where
  members ms hms := by
    rcases Json.itemsOf_eq hroot with ⟨items, hitems, -⟩ | ⟨-, hne⟩
    · exact ⟨items, hitems⟩
    · exact absurd hms (hne ms)
  served c items hcomes hserves hitems hscalar := by
    have hbatch := batchable_scalars hscalar
    rw [← items_eq hroot hitems] at hbatch
    obtain ⟨kvs, -, -, w', h⟩ := writeBatch_performs hw.inv hroot hop hcomes hbatch
    rw [if_pos hserves] at h
    exact ⟨w', h, .of_contents hw.inv hcomes.finds hscalar
      (writeBatch_contents hw.inv hroot hop hcomes.finds hitems h)⟩
  empty c hcomes hserves hitems := by
    obtain ⟨hbatch, hnone⟩ : Batchable (root.member (ascii "items")) ∧
        batchOf (root.member (ascii "items")) = .ok [] := by
      rcases hitems with h | h <;> rw [h] <;> exact ⟨⟨rfl, nofun⟩, rfl⟩
    obtain ⟨kvs, hkvs, hp, w', h⟩ := writeBatch_performs hw.inv hroot hop hcomes hbatch
    cases hnone.symm.trans hkvs
    rw [if_pos hserves] at h
    refine ⟨w', h, ?_⟩
    rw [hp.contents hw.inv h, if_pos hserves]
    rfl
  refused c hcomes hserves hbatch := by
    obtain ⟨kvs, -, hp, w', h⟩ := writeBatch_performs hw.inv hroot hop hcomes hbatch
    rw [hserves] at h
    refine ⟨w', h, ?_⟩
    rw [hp.contents hw.inv h, hserves]
    rfl
  unconvertible hbatch := by
    have hne : ((execReplyLeaving inp).run w).1 ≠ .ok (errorReply 0) := by
      intro h
      have hrun : execReply inp w = .ok (errorReply 0, ((execReplyLeaving inp).run w).2) := by
        rw [← execReplyLeaving_result, Leaving.result_eq_ok, ← h]
        rfl
      obtain ⟨c, kvs, hkvs, -⟩ := writeBatch_of_zero hw.inv hroot hop hrun
      have hwf := (Json.parseFromStream_wellFormed hroot).member (ascii "items")
      exact hbatch ((returns_batchOf_iff hwf).mp ⟨kvs, hkvs⟩)
    exact ⟨hne, (execReplyLeaving_unchanged inp w).resolve_left hne⟩
  leaving := execReplyLeaving_result inp w

/-- A batch with a number, a boolean and a name that is repeated. -/
def batchPayload : Bytes :=
  payload "\"op\":\"write_batch\",\"items\":\x7b\"k\":1,\"j\":true,\"k\":\"v\"\x7d"

/-- A put of the same key and value as a member of a batch. -/
def memberPayload (key value : String) : Bytes :=
  payload ("\"op\":\"put\",\"key\":\"" ++ key ++ "\",\"value\":" ++ value)

theorem memberPayload_puts (key value : String) {v root : Value}
    (h : Json.parsesTo (memberPayload key value) (.object [(ascii "dbname", textValue "a"),
      (ascii "key", textValue key), (ascii "op", textValue "put"), (ascii "value", v)]) = true)
    (hkey : (textValue key).asString = .ok (ascii key))
    (hroot : root.member (ascii "dbname") = textValue "a") :
    PutsMember root (memberPayload key value) (ascii key, v) :=
  ⟨_, Json.parseFromStream_eq h, by rw [hroot]; rfl, rfl, hkey, rfl⟩

theorem writeBatch_agrees_repeated : ∃ root items payloads w', Json.itemsOf batchPayload = some items ∧
    items.map Prod.fst = [ascii "k", ascii "j", ascii "k"] ∧
    List.Forall₂ (PutsMember root) payloads items ∧
    execReply batchPayload ⟨[plainConfig], emptyRocks⟩ = .ok (errorReply 0, w') ∧
    AsPuts ⟨[plainConfig], emptyRocks⟩ root plainConfig items w' ∧
    w'.rocks.contents (ascii "p") kDefaultColumnFamilyName (ascii "k") = some (ascii "v") ∧
    w'.rocks.contents (ascii "p") kDefaultColumnFamilyName (ascii "j") = some (ascii "true") := by
  have hw : World.Reachable ⟨[plainConfig], emptyRocks⟩ :=
    ⟨plainFile, _, emptyRocks, [], [], readConfigs_plainFile, rfl, rfl⟩
  have hparse : Json.parseFromStream batchPayload =
      .ok (.ok (.object [(ascii "dbname", textValue "a"),
        (ascii "items", .object [(ascii "j", .bool true), (ascii "k", textValue "v")]),
        (ascii "op", textValue "write_batch")])) :=
    Json.parseFromStream_eq (by decide +kernel)
  obtain ⟨items, hitems, hsame⟩ : ∃ items, Json.itemsOf batchPayload = some items ∧
      Value.sameMembers items
        [(ascii "k", .int 1), (ascii "j", .bool true), (ascii "k", textValue "v")] = true :=
    (Option.any_eq_true _ _).mp (by decide +kernel)
  obtain rfl := Value.eq_of_sameMembers hsame
  obtain ⟨w', hreply, hputs⟩ := (writeBatch_agrees hw hparse rfl).served plainConfig _
    ⟨⟨ascii "a", 0, rfl, by decide, rfl⟩, .inr fun _ _ => rfl, .inr rfl⟩ rfl hitems (by decide)
  exact ⟨_, _, _, w', hitems, rfl,
    .cons (memberPayload_puts "k" "1" (by decide +kernel) rfl rfl)
      (.cons (memberPayload_puts "j" "true" (by decide +kernel) rfl rfl)
        (.cons (memberPayload_puts "k" "\"v\"" (by decide +kernel) rfl rfl) .nil)),
    hreply, hputs, hputs.last [_, _] _ _ [] _ rfl (by decide) rfl,
    hputs.last [_] _ _ [_] _ rfl (by decide) rfl⟩

end RocksdbService
