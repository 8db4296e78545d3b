import RocksdbService.Verify.Buffers
import RocksdbService.Verify.DocumentLength
import RocksdbService.Verify.Replies

/-! # Whether a reply has room

`do_write` sizes the buffer of the reply by the length of the request. A payload that names a
database is longer than any code that can be the answer, so what overruns the buffer is a code for a
payload of less than 12 bytes, or a value that `get` finds (`doWrite_returns_iff`). -/

namespace RocksdbService

open Outcome
open Json (Value valueToQuotedStringN)

/-! ## The texts of the replies -/

theorem write_errorReply_length (code : Int) :
    (Json.FastWriter.write (errorReply code)).length = (Json.intToString code).length + 11 := by
  have hlen : (ascii "\x7b\"error\":").length = 9 ∧ (ascii "\x7d\n").length = 2 := by decide
  rw [write_errorReply, List.length_append, List.length_append, hlen.1, hlen.2]
  omega

theorem write_valueReply_length {value : Bytes} {reply : Value} (h : valueReply value = .ok reply) :
    (Json.FastWriter.write reply).length =
      (valueToQuotedStringN (value.take (value.length % 2 ^ 32))).length + 21 := by
  have hlen : (ascii "\x7b\"error\":0,\"value\":").length = 19 ∧ (ascii "\x7d\n").length = 2 := by
    decide
  rw [write_valueReply h, List.length_append, List.length_append, hlen.1, hlen.2]
  omega

theorem Command.code_mem (command : Command) (c : Config) (served : Bool) :
    command.code c served ∈ [0, -2, 7] := by
  cases command <;> simp only [code] <;> (repeat' split) <;> simp

theorem Command.code_length (command : Command) (c : Config) (served : Bool) :
    (Json.intToString (command.code c served)).length ≤ 2 ∧
      (command = .unknown → (Json.intToString (command.code c served)).length = 1) := by
  have hlen : ∀ code ∈ ([0, -2, 7] : List Int), (Json.intToString code).length ≤ 2 := by decide
  refine ⟨hlen _ (command.code_mem c served), ?_⟩
  rintro rfl
  change (Json.intToString 7).length = 1
  decide

/-! ## Payloads that name a database -/

theorem commandOf_unknown {root : Value} (h : (root.member (ascii "op")).asString = .ok []) :
    commandOf root = .ok .unknown := by
  rw [commandOf, h]
  rfl

/-- A payload that names a database has 12 bytes, and one that also names an operation has 13. -/
theorem requestOf_named_length {payload name : Bytes} {command : Outcome Command}
    (hq : requestOf payload = .ok (.named name command)) (hname : name ≠ []) :
    12 ≤ payload.length ∧
      ∀ command', command = .ok command' → command' ≠ .unknown → 13 ≤ payload.length := by
  obtain ⟨root, hp, -, hs, rfl⟩ := requestOf_named hq
  obtain ⟨ms, v, rfl, hv⟩ := member_ne_null hs hname
  have hlen := Json.membersLength_lt hp
  have hdbname : (ascii "dbname").length = 6 := by decide
  have hone := Json.OurReader.membersLength_find? hv
  refine ⟨by omega, fun command hcommand hne => ?_⟩
  obtain ⟨op, hop, -⟩ := bind_eq_ok.mp hcommand
  have hop' : op ≠ [] := by
    rintro rfl
    rw [commandOf_unknown hop] at hcommand
    cases hcommand
    exact hne rfl
  obtain ⟨ms', v', heq, hv'⟩ := member_ne_null hop hop'
  cases heq
  have htwo := Json.OurReader.membersLength_find?_two (by decide) hv hv'
  omega

/-! ## `do_write` -/

/-- A payload that no database is named in. -/
def Request.Unnamed : Request → Prop
  | .rejected => True
  | .named name _ => name = []

/-- The reply to the payload takes no more bytes than the payload. -/
structure ReplyFits (w : World) (payload : Bytes) : Prop where
  unnamed : ∀ q, requestOf payload = .ok q → q.Unnamed → 12 ≤ payload.length
  /-- The 21 bytes are `{"error":0,"value":`, the brace and the line feed; lengths are cast to 32
  bits. -/
  value : ∀ name command i c value, requestOf payload = .ok (.named name (.ok command)) →
    name ≠ [] → w.find? name = some (i, c) → c.Opens w.rocks →
    command.fetched c w.rocks.contents (w.serves c) = some value →
    ((valueToQuotedStringN (value.take (value.length % 2 ^ 32))).length + 21) % 2 ^ 32 ≤
      payload.length

theorem replyFits_iff {w : World} {payload : Bytes} {reply : Value} (h : w.Replies payload reply) :
    (Json.FastWriter.write reply).length % 2 ^ 32 ≤ payload.length ↔ ReplyFits w payload := by
  have small : ∀ {n : Nat}, n ≤ 13 → n % 2 ^ 32 = n := fun h => Nat.mod_eq_of_lt (by omega)
  have hcodes : (Json.intToString 1).length = 1 ∧ (Json.intToString 3).length = 1 ∧
      (Json.intToString 4).length = 1 ∧ (Json.intToString 6).length = 1 := by decide
  have named : ∀ {name : Bytes} {command : Outcome Command},
      requestOf payload = .ok (.named name command) → name ≠ [] →
      (∀ command' i c value, command = .ok command' → w.find? name = some (i, c) →
        c.Opens w.rocks → command'.fetched c w.rocks.contents (w.serves c) ≠ some value) →
      ReplyFits w payload := by
    intro name command hq hname hnone
    refine ⟨fun q hq' hu => ?_, fun name' command' i c value hq' _ hfind hopens hf => ?_⟩
    · cases hq.symm.trans hq'
      exact absurd hu hname
    · cases hq.symm.trans hq'
      exact absurd hf (hnone command' i c value rfl hfind hopens)
  have unnamed : ∀ {q : Request}, requestOf payload = .ok q → q.Unnamed →
      (12 ≤ payload.length ↔ ReplyFits w payload) := by
    intro q hq hu
    refine ⟨fun h => ⟨fun _ _ _ => h, fun name command i c value hq' hname => ?_⟩,
      fun h => h.unnamed q hq hu⟩
    cases hq.symm.trans hq'
    exact absurd hu hname
  cases h with
  | rejected hq =>
    rw [write_errorReply_length, hcodes.1, small (by decide)]
    exact unnamed hq trivial
  | unnamed hq =>
    rw [write_errorReply_length, hcodes.2.2.2, small (by decide)]
    exact unnamed hq rfl
  | unknown hq hname hfind =>
    rw [write_errorReply_length, hcodes.2.1, small (by decide)]
    refine iff_of_true (requestOf_named_length hq hname).1 (named hq hname ?_)
    intro _ i c _ _ hfind'
    cases hfind.symm.trans hfind'
  | refused hq hname hfind hopens =>
    rw [write_errorReply_length, hcodes.2.2.1, small (by decide)]
    refine iff_of_true (requestOf_named_length hq hname).1 (named hq hname ?_)
    intro _ i c _ _ hfind' hopens'
    cases hfind.symm.trans hfind'
    exact absurd hopens' hopens
  | @code name command i c hq hname hfind hopens hfetched =>
    obtain ⟨htwo, hone⟩ := command.code_length c (w.serves c)
    obtain ⟨h₁, h₂⟩ := requestOf_named_length hq hname
    rw [write_errorReply_length, small (by omega)]
    refine iff_of_true ?_ (named hq hname ?_)
    · by_cases hu : command = .unknown
      · rw [hone hu]; exact h₁
      · have := h₂ command rfl hu
        omega
    · intro command' i' c' value hc hfind' _ hf
      cases hc
      cases hfind.symm.trans hfind'
      rw [hfetched] at hf
      cases hf
  | @value name command i c value _ hq hname hfind hopens hfetched hreply =>
    rw [write_valueReply_length hreply]
    constructor
    · intro h
      refine ⟨fun q hq' hu => ?_, fun name' command' i' c' value' hq' _ hfind' _ hf => ?_⟩
      · cases hq.symm.trans hq'
        exact absurd hu hname
      · cases hq.symm.trans hq'
        cases hfind.symm.trans hfind'
        cases hfetched.symm.trans hf
        exact h
    · intro h
      exact h.value name command i c value hq hname hfind hopens hfetched

/-- With the buffer that `do_write` allocates, no access of it is out of range exactly if the reply
fits. -/
theorem doWrite_returns_iff {w : World} (hw : w.Reachable) {s : Session} {payload : Bytes}
    (hs : s.Holds payload) (hlen : payload.length ≤ maxLength) (e : Endian)
    (hret : Returns (execJson payload w)) :
    Returns (s.doWrite ⟨e, 0⟩ execJson w payload.length) ↔ ReplyFits w payload := by
  obtain ⟨⟨out, w'⟩, hexec⟩ := hret
  rw [Session.doWrite_eq hs hlen, hexec, ok_bind]
  obtain ⟨⟨reply, w₁⟩, hreply, h⟩ := bind_eq_ok.mp hexec
  cases h
  rw [← replyFits_iff (execReply_replies hw.inv hreply)]
  dsimp only
  rw [Nat.add_zero]
  split
  · next h => exact iff_of_true ⟨_, rfl⟩ h
  · next h => exact iff_of_false (not_returns_error _) h

/-- A session that has received `getPayload`. -/
def receivedGet : Session where
  heap := { blocks := fun b => if b = 0 then some (getPayload.map some) else none, next := 1 }
  inpData := some ⟨0, 0⟩

theorem reachable_holding (v : Bytes) : World.Reachable ⟨[plainConfig], holding v⟩ :=
  ⟨plainFile, _, holding v, [], [], readConfigs_plainFile, rfl, rfl⟩

theorem returns_getPayload {v : Bytes} (h : Returns (valueReply v)) :
    Returns (execJson getPayload ⟨[plainConfig], holding v⟩) := by
  obtain ⟨reply, hreply⟩ := h
  have hw := (reachable_holding v).inv
  have hfind : World.find? ⟨[plainConfig], holding v⟩ (ascii "a") = some (0, plainConfig) := rfl
  rcases World.request_cases hw (.ok (.get (ascii "k"))) (by decide) hfind with
    ⟨hnot, -⟩ | ⟨-, hnot, -⟩ | ⟨-, -, w', hrequest⟩
  · exact absurd (.inr fun k _ => rfl) hnot
  · exact absurd (.inr rfl) hnot
  · have hfetched : (Command.get (ascii "k")).fetched plainConfig (holding v).contents true = some v := rfl
    have hanswer : execReply getPayload ⟨[plainConfig], holding v⟩ = .ok (reply, w') := by
      rw [execReply_eq _ hw, requestOf_getPayload]
      refine hrequest.trans ?_
      rw [ok_bind, show World.serves _ _ = true from rfl, hfetched]
      simp [hreply]
    exact ⟨_, by rw [execJson, hanswer]; rfl⟩

theorem replyFits_getPayload_iff (v : Bytes) : ReplyFits ⟨[plainConfig], holding v⟩ getPayload ↔
    ((valueToQuotedStringN (v.take (v.length % 2 ^ 32))).length + 21) % 2 ^ 32 ≤ getPayload.length := by
  constructor
  · exact fun h => h.value _ _ 0 plainConfig v requestOf_getPayload (by decide) rfl (.inr rfl) rfl
  · refine fun h => ⟨fun q hq hu => ?_, fun name command i c value hq _ hfind _ hf => ?_⟩
    · cases requestOf_getPayload.symm.trans hq
      cases hu
    · cases requestOf_getPayload.symm.trans hq
      cases hfind
      cases hf
      exact h

/-- A stored value of eleven bytes, one of which is escaped, just fits, and with one more byte it does
not. -/
theorem doWrite_getPayload :
    Returns (receivedGet.doWrite ⟨.little, 0⟩ execJson ⟨[plainConfig], holding (ascii "\"abcdefghij")⟩
      getPayload.length) ∧
    ¬ Returns (receivedGet.doWrite ⟨.little, 0⟩ execJson
      ⟨[plainConfig], holding (ascii "\"abcdefghijk")⟩ getPayload.length) := by
  have hs : receivedGet.Holds getPayload := ⟨0, rfl, Nat.one_pos, rfl⟩
  have hiff : ∀ {v : Bytes}, Returns (valueReply v) →
      (Returns (receivedGet.doWrite ⟨.little, 0⟩ execJson ⟨[plainConfig], holding v⟩ getPayload.length) ↔
        ReplyFits ⟨[plainConfig], holding v⟩ getPayload) := fun hreply =>
    doWrite_returns_iff (reachable_holding _) hs (by decide) .little (returns_getPayload hreply)
  rw [hiff ⟨_, rfl⟩, hiff ⟨_, rfl⟩, replyFits_getPayload_iff, replyFits_getPayload_iff]
  decide

/-- A frame of length 0 has a reply of 12 bytes, for which `do_write` has allocated 4. -/
theorem doWrite_empty_frame :
    World.Reachable ⟨[plainConfig], emptyRocks⟩ ∧
      Returns (execJson [] ⟨[plainConfig], emptyRocks⟩) ∧
      Session.doWrite ⟨.little, 0⟩ execJson
        (({} : Session).headerRead ⟨.little, 0⟩ (some [0, 0, 0, 0]))
        ⟨[plainConfig], emptyRocks⟩ 0 = .error .undefined := by
  have hexec : execJson [] ⟨[plainConfig], emptyRocks⟩ =
      .ok (ascii "\x7b\"error\":1\x7d\n", ⟨[plainConfig], emptyRocks⟩) := rfl
  have hs : (({} : Session).headerRead ⟨.little, 0⟩ (some [0, 0, 0, 0])).Holds [] :=
    ⟨0, rfl, Nat.one_pos, rfl⟩
  refine ⟨⟨plainFile, _, emptyRocks, [], [], readConfigs_plainFile, rfl, rfl⟩, ⟨_, hexec⟩, ?_⟩
  have h : Session.doWrite ⟨.little, 0⟩ execJson
      (({} : Session).headerRead ⟨.little, 0⟩ (some [0, 0, 0, 0])) ⟨[plainConfig], emptyRocks⟩ 0 = _ :=
    Session.doWrite_eq hs (Nat.zero_le _) _
  rw [h, hexec]
  rfl

end RocksdbService
