import RocksdbService.Verify.Escaping
import RocksdbService.Verify.Interleaving
import RocksdbService.Verify.ReplyRoom
import RocksdbService.Verify.StoredLength

/-! # The frames of the replies

A client decodes what `do_write` sends by the length in front. In stores that only requests have written,
the values are short, so the casts to 32 bits change nothing, and no reply has a NUL at which `strncpy`
would stop: each frame decodes to exactly the reply (`carrying_of_steps`). -/

namespace RocksdbService

open Outcome
open Json (Value valueToQuotedStringN)

/-! ## The texts -/

theorem valueToQuotedStringN_ne_zero (s : Bytes) : 0 ∉ valueToQuotedStringN s := by
  rw [Json.valueToQuotedStringN_eq]
  intro h
  rcases List.mem_cons.mp h with h | h
  · exact absurd h (by decide)
  rcases List.mem_append.mp h with h | h
  · exact Json.escapeLoop_ne_zero 0 s 0 h rfl
  · exact absurd (List.mem_singleton.mp h) (by decide)

theorem valueToQuotedStringN_length_le (s : Bytes) :
    (valueToQuotedStringN s).length ≤ 6 * s.length + 2 := by
  have := Json.escapeLoop_length 0 s
  rw [Json.valueToQuotedStringN_eq]
  simp only [List.length_cons, List.length_append, List.length_nil]
  omega

/-- The longest reply. -/
def maxReply : Nat := 6 * maxLength + 23

namespace World

/-- A reply has a code only, or a stored value. -/
theorem Replies.cases_text {w : World} {inp : Bytes} {reply : Value} (h : w.Replies inp reply) :
    (∃ code ∈ ([0, -2, 7, 1, 3, 4, 6] : List Int), reply = errorReply code) ∨
      ∃ path family key value, w.rocks.contents path family key = some value ∧
        valueReply value = .ok reply := by
  cases h with
  | rejected => exact .inl ⟨1, by decide, rfl⟩
  | unnamed => exact .inl ⟨6, by decide, rfl⟩
  | unknown => exact .inl ⟨3, by decide, rfl⟩
  | refused => exact .inl ⟨4, by decide, rfl⟩
  | @code name command i c =>
    exact .inl ⟨_, List.mem_append_left [1, 3, 4, 6] (command.code_mem c (w.serves c)), rfl⟩
  | value _ _ _ _ hfetched hreply =>
    refine .inr ?_
    unfold Command.fetched at hfetched
    split at hfetched
    · obtain ⟨⟨family, key⟩, -, hvalue⟩ := Option.bind_eq_some_iff.mp hfetched
      exact ⟨_, family, key, _, hvalue, hreply⟩
    · cases hfetched

theorem Replies.write_le {w : World} (hb : Bounded w.rocks.contents) {inp : Bytes} {reply : Value}
    (h : w.Replies inp reply) :
    (Json.FastWriter.write reply).length ≤ maxReply ∧ 0 ∉ Json.FastWriter.write reply := by
  rcases h.cases_text with ⟨code, hcode, rfl⟩ | ⟨path, family, key, value, hvalue, hreply⟩
  · have hcodes : ∀ code ∈ ([0, -2, 7, 1, 3, 4, 6] : List Int),
        (Json.intToString code).length ≤ 2 ∧ 0 ∉ Json.intToString code := by decide
    obtain ⟨hlen, hnul⟩ := hcodes code hcode
    refine ⟨by rw [write_errorReply_length, maxReply]; omega, ?_⟩
    have htext : 0 ∉ ascii "\x7b\"error\":" ∧ 0 ∉ ascii "\x7d\n" := by decide
    rw [write_errorReply, List.mem_append, List.mem_append]
    exact not_or.mpr ⟨not_or.mpr ⟨htext.1, hnul⟩, htext.2⟩
  · have hlen := hb path family key value hvalue
    have hquoted := valueToQuotedStringN_length_le (value.take (value.length % 2 ^ 32))
    have htake := List.length_take_le' (value.length % 2 ^ 32) value
    refine ⟨by rw [write_valueReply_length hreply, maxReply]; omega, ?_⟩
    have htext : 0 ∉ ascii "\x7b\"error\":0,\"value\":" ∧ 0 ∉ ascii "\x7d\n" := by decide
    rw [write_valueReply hreply, List.mem_append, List.mem_append]
    exact not_or.mpr ⟨not_or.mpr ⟨htext.1, valueToQuotedStringN_ne_zero _⟩, htext.2⟩

end World

/-- A payload that `do_read` accepts has a short reply without NUL, and keeps the stored values short. -/
theorem execJson_bounded {w w' : World} (hi : w.Inv ∧ Bounded w.rocks.contents) {inp out : Bytes}
    (hlen : inp.length ≤ maxLength) (h : execJson inp w = .ok (out, w')) :
    (w'.Inv ∧ Bounded w'.rocks.contents) ∧ out.length ≤ maxReply ∧ 0 ∉ out := by
  obtain ⟨⟨reply, w₁⟩, hreply, h⟩ := bind_eq_ok.mp h
  cases h
  exact ⟨⟨(hi.1.execReply hreply).1, hi.2.execReply hi.1 hlen hreply⟩,
    (execReply_replies hi.1 hreply).write_le hi.2⟩

/-! ## The frames -/

/-- A frame as a client takes it: a native `uint32_t` and as many bytes. -/
def Platform.replyFraming (P : Platform) : Framing Byte where
  header := size32
  size header := some (P.endian.decode32 header)
  header_pos := size32_pos

/-- What `do_write` hands to `async_write` decodes to the reply and nothing more. -/
structure Call.Carried (P : Platform) (k : Call) : Prop where
  /-- Neither `out_len` nor `out_len + size32` wraps. -/
  length : k.reply.length + size32 < 2 ^ 32
  /-- `strncpy` stops nowhere before the end. -/
  nul : 0 ∉ k.reply
  frame : P.replyFraming.next? k.frame = some (k.reply, [])

theorem Call.carried_of_le {P : Platform} {k : Call} (hframe : k.frame = Session.frameOf P.endian k.reply)
    (hlen : k.reply.length ≤ maxReply) (hnul : 0 ∉ k.reply) : k.Carried P := by
  have hmax : maxReply + size32 < 2 ^ 32 := by decide
  have hlt : k.reply.length + size32 < 2 ^ 32 := Nat.lt_of_le_of_lt (Nat.add_le_add_right hlen _) hmax
  refine ⟨hlt, hnul, Framing.next?_eq_some.mpr ⟨P.endian.encode32 k.reply.length, ?_, ?_, ?_⟩⟩
  · exact Endian.encode32_length _ _
  · exact congrArg some (P.endian.decode32_encode32 (Nat.lt_of_le_of_lt (Nat.le_add_right _ _) hlt))
  · rw [hframe, Session.frameOf_eq _ hlt hnul, List.append_nil]

namespace Framing

/-- A property of the sizes that a framing accepts. -/
theorem Decodes.size {α : Type} {F : Framing α} {s rest : List α} {payloads : List (List α)}
    (h : F.Decodes s payloads rest) : ∀ payload ∈ payloads, ∃ header,
      F.size header = some payload.length := by
  induction h with
  | refl => exact nofun
  | snoc _ hnext ih =>
    obtain ⟨header, -, hsize, -⟩ := next?_eq_some.mp hnext
    refine List.forall_mem_append.mpr ⟨ih, fun payload hp => ?_⟩
    rw [List.mem_singleton.mp hp]
    exact ⟨header, hsize⟩

end Framing

/-- `do_read` has checked the length of what is executed. -/
theorem Conn.Inv.request_le {P : Platform} {c : Conn} (h : c.Inv P) :
    ∀ request ∈ c.requests, request.length ≤ maxLength := by
  intro request hmem
  obtain ⟨rest, hdecodes⟩ := h.decodes
  obtain ⟨header, hsize⟩ := hdecodes.size request hmem
  simp only [Platform.framing] at hsize
  split at hsize
  · cases hsize
  · next hle => exact Option.some.inj hsize ▸ Nat.not_lt.mp hle

namespace Net

/-- What the replies of a server over stores that started empty are like. -/
structure Carrying (P : Platform) (n : Net World) : Prop where
  stored : Bounded n.state.rocks.contents
  calls : ∀ p ∈ n.order, p.2.Carried P
  /-- The next payload: how long its reply is at most, and what `do_write` does if the reply has room. -/
  next : ∀ payload out w', payload.length ≤ maxLength → execJson payload n.state = .ok (out, w') →
    out.length ≤ maxReply ∧
      ∀ s : Session, s.Holds payload → out.length ≤ payload.length + P.slack →
        ∃ s' k, s.doWrite P execJson n.state payload.length = .ok ⟨s', w', some k⟩ ∧
          k.request = payload ∧ k.reply = out ∧ k.Carried P

theorem carrying_of_steps {P : Platform} {file : Bytes} {configs : List Config} {rocks : Rocks}
    (hread : readConfigs rocks.api file = .ok (some configs)) (hlive : rocks.live = fun _ => none)
    (hempty : rocks.contents = fun _ _ _ => none) {events : List Event} {n : Net World}
    (h : Steps P execJson { state := ⟨configs, rocks⟩ } events n) : Carrying P n := by
  have hinv : (⟨configs, rocks⟩ : World).Inv := .start (readConfigs_start hread) hlive
  have hbounded : Bounded rocks.contents := by
    rw [hempty]
    exact nofun
  have hordered := h.ordered
  have hrequests : ∀ request ∈ n.order.map (·.2.request), request.length ≤ maxLength := by
    intro request hmem
    obtain ⟨⟨i, k⟩, hk, rfl⟩ := List.mem_map.mp hmem
    refine ((h.inv (.init _)).conn i).request_le _ (List.mem_map_of_mem ?_)
    rw [← hordered.own i]
    exact mem_callsOf hk
  obtain ⟨⟨hinv', hbounded'⟩, hreplies⟩ := run_outputs (A := (·.length ≤ maxLength))
    (fun hlen hi h => execJson_bounded hi hlen h) hrequests ⟨hinv, hbounded⟩ hordered.sequential
  refine ⟨hbounded', fun p hp => ?_, fun payload out w' hlen hexec => ?_⟩
  · obtain ⟨hlen, hnul⟩ := hreplies _ (List.mem_map_of_mem hp)
    exact Call.carried_of_le (hordered.frames p hp) hlen hnul
  · obtain ⟨-, hle, hnul⟩ := execJson_bounded ⟨hinv', hbounded'⟩ hlen hexec
    refine ⟨hle, fun s hs hroom => ?_⟩
    have hlt : out.length < 2 ^ 32 := Nat.lt_of_le_of_lt hle (by decide)
    rw [Session.doWrite_eq hs hlen, hexec, ok_bind]
    dsimp only
    rw [Nat.mod_eq_of_lt hlt, if_pos hroom]
    exact ⟨_, _, rfl, rfl, rfl, Call.carried_of_le rfl hle hnul⟩

/-- A request to put a NUL and a quote under `k`. -/
def nulPayload : Bytes := payload "\"op\":\"put\",\"key\":\"k\",\"value\":\"\\u0000\\\"\""

/-- A client that puts a NUL and a quote and gets them back. -/
def nulEvents : List Event := [
  .connect 0,
  .accept 0,
  .deliver 0 (Endian.little.encode32 nulPayload.length ++ nulPayload),
  .complete 0 .header (some 4),
  .complete 0 (.readSome ⟨0, 0⟩ 54 .doRead) (some 54),
  .deliver 0 (Endian.little.encode32 getPayload.length ++ getPayload),
  .complete 0 (.write (Endian.little.encode32 12 ++ ascii "\x7b\"error\":0\x7d\n")) (some 16),
  .complete 0 .header (some 4),
  .complete 0 (.readSome ⟨2, 0⟩ 35 .doRead) (some 35)]

theorem carrying_nul : ∃ n : Net World,
    n.order.map (·.2.reply) = [ascii "\x7b\"error\":0\x7d\n",
      ascii "\x7b\"error\":0,\"value\":\"\\u0000\\\"\"\x7d\n"] ∧ Carrying ⟨.little, 0⟩ n := by
  have hrun : ((nulEvents.foldlM (next ⟨.little, 0⟩ execJson)
      { state := ⟨[plainConfig], emptyRocks⟩ }).map fun n => n.order.map (·.2.reply)) =
        some [ascii "\x7b\"error\":0\x7d\n",
          ascii "\x7b\"error\":0,\"value\":\"\\u0000\\\"\"\x7d\n"] := by decide +kernel
  obtain ⟨n, hn, horder⟩ := Option.map_eq_some_iff.mp hrun
  exact ⟨n, horder, @carrying_of_steps _ _ _ emptyRocks readConfigs_plainFile rfl rfl _ _
    (steps_of_foldlM hn)⟩

end Net

end RocksdbService
