import RocksdbService.Service.Client
import RocksdbService.Verify.Queries
import RocksdbService.Verify.ReplyFrames
import RocksdbService.Verify.StyledWriter
import RocksdbService.Verify.Transfer

/-! # What a client is answered

`query` sends a value if its text fits into `out_data_` (`request_eq`), the server executes it exactly
once, and what `query` returns is the reply of the maps at that place in their order, as far as it fits
into `reply` (`query_answered`). -/

namespace RocksdbService

open Outcome
open Json (Value JString)

namespace Client

theorem indentation_blank : ∀ c ∈ ({} : Json.StreamWriterBuilder).indentation, Json.isSpace c = true :=
  List.forall_mem_singleton.mpr rfl

theorem strncpy_take {src : Bytes} (h : 0 ∉ src) {n : Nat} (hn : n ≤ src.length) :
    strncpy src n = src.take n := by
  have hself := strncpy_self fun hmem => h (List.mem_of_mem_take hmem (i := n))
  rw [List.length_take_of_le hn] at hself
  rw [← hself, strncpy, strncpy, List.take_take, Nat.min_self]

theorem writeString_ne_zero {root : Value} (h : root.Writable) {text : Bytes}
    (htext : Json.writeString {} root = .ok text) : 0 ∉ text := by
  obtain ⟨w, text', hwrite, hspell⟩ := Json.writeString_spells indentation_blank rfl h
  cases htext.symm.trans hwrite
  exact List.mem_append.not.mpr (not_or.mpr ⟨w.ne_zero, hspell.ne_zero⟩)

/-- Any length that a variable of type `uint32_t` may have; `out_data_` is the only block. -/
theorem request_of_length (endian : Endian) {root : Value} {text : Bytes}
    (htext : Json.writeString {} root = .ok text) (hnul : 0 ∉ text) {length : Nat}
    (hlength : text.length % 2 ^ 32 = length) : request endian root =
      if length + size32 ≤ maxLength then .ok (endian.encode32 length ++ text.take length)
      else .error .undefined := by
  have hle : length ≤ text.length := hlength ▸ Nat.mod_le _ _
  rw [request, htext, ok_bind]
  dsimp only
  rw [hlength]
  have hheader := endian.encode32_length length
  have hbody : (text.take length).length = length := List.length_take_of_le hle
  have hblock : (({} : Heap).alloc maxLength).2.blocks 0 = some (List.replicate maxLength none) := rfl
  have hptr : Ptr.add (({} : Heap).alloc maxLength).1 size32 = ⟨0, (endian.encode32 length).length⟩ := by
    rw [hheader]
    rfl
  have hroom : (endian.encode32 length).length + (text.take length).length = length + size32 := by
    rw [hheader, hbody, Nat.add_comm]
  rw [strncpy_take hnul hle, hptr]
  split
  · next hfits =>
    have hwrite := Heap.write_behind_header (endian.encode32 length) (text.take length) hblock
      (hroom ▸ hfits)
    have hsent : (endian.encode32 length ++ text.take length).length = length + size32 := by
      rw [List.length_append, hroom]
    have hsize : (length + size32) % 2 ^ 32 = length + size32 :=
      Nat.mod_eq_of_lt (Nat.lt_of_le_of_lt hfits (by decide))
    have hfilled : ((({} : Heap).alloc maxLength).2.setBlock 0 (some
        (filled (endian.encode32 length ++ text.take length) maxLength))).blocks 0 = some
          (filled (endian.encode32 length ++ text.take length) maxLength) := by
      rw [Heap.setBlock_blocks, if_pos rfl]
    have hread := Heap.read_filled hfilled (Nat.le_of_eq hsent.symm) (hsent ▸ hfits)
    have hzero : (({} : Heap).alloc maxLength).1 = ⟨0, 0⟩ := rfl
    rw [hzero, ← bind_assoc, hwrite, ok_bind, hsize, Nat.min_eq_right hfits, hread,
      List.take_of_length_le (Nat.le_of_eq hsent)]
  · next hfits =>
    rw [Heap.write_out_of_range hblock]
    · rfl
    · rw [List.length_replicate, hroom]
      exact Nat.not_le.mp hfits

/-- The text goes behind its length, and otherwise `strncpy` leaves the array. -/
theorem request_eq (endian : Endian) {root : Value} (h : root.Writable) {text : Bytes}
    (htext : Json.writeString {} root = .ok text) : request endian root =
      if text.length % 2 ^ 32 + size32 ≤ maxLength then
        .ok (endian.encode32 (text.length % 2 ^ 32) ++ text.take (text.length % 2 ^ 32))
      else .error .undefined :=
  request_of_length endian htext (writeString_ne_zero h htext) rfl

/-- A value that is put. -/
def putValue : Value := .object [
  (ascii "dbname", textValue "a"),
  (ascii "key", textValue "k"),
  (ascii "op", textValue "put"),
  (ascii "value", textValue "v")]

def putText : Bytes :=
  ascii "\x7b\n\t\"dbname\" : \"a\",\n\t\"key\" : \"k\",\n\t\"op\" : \"put\",\n\t\"value\" : \"v\"\n\x7d"

theorem textValue_eq {s : String} (h : (ascii s).length ≤ Json.maxStringLength) :
    textValue s = .string ⟨ascii s, h⟩ := dif_pos h

theorem writeString_putValue : Json.writeString {} putValue = .ok putText := by
  have hvalues : textValue "a" = .string ⟨ascii "a", by decide⟩ ∧
      textValue "k" = .string ⟨ascii "k", by decide⟩ ∧
      textValue "put" = .string ⟨ascii "put", by decide⟩ ∧
      textValue "v" = .string ⟨ascii "v", by decide⟩ :=
    ⟨textValue_eq _, textValue_eq _, textValue_eq _, textValue_eq _⟩
  rw [putValue, hvalues.1, hvalues.2.1, hvalues.2.2.1, hvalues.2.2.2]
  simp only [Json.writeString, Json.BuiltStyledStreamWriter.write,
    Json.BuiltStyledStreamWriter.writeValue, Json.BuiltStyledStreamWriter.writeMembers]
  decide +kernel

theorem textValue_writable {s : String} (h : 3 * (ascii s).length ≤ Json.maxStringLength) :
    (textValue s).Writable := by
  rw [textValue_eq (Nat.le_trans (Nat.le_mul_of_pos_left _ (by decide)) h)]
  exact .string ((Json.recoded_length _).trans h)

theorem recoded_short {name : Bytes} (h : 3 * name.length ≤ Json.maxNameLength) :
    (Json.recoded name).length ≤ Json.maxNameLength :=
  (Json.recoded_length _).trans h

theorem putValue_writable : putValue.Writable := by
  refine .object ?_ ?_
  · simp only [List.forall_mem_cons]
    exact ⟨recoded_short (by decide), recoded_short (by decide), recoded_short (by decide),
      recoded_short (by decide), List.forall_mem_nil _⟩
  · simp only [List.forall_mem_cons]
    exact ⟨textValue_writable (by decide), textValue_writable (by decide), textValue_writable (by decide),
      textValue_writable (by decide), List.forall_mem_nil _⟩

theorem request_eq_put :
    request .little putValue = .ok (Endian.little.encode32 64 ++ putText.take 64) :=
  (request_eq .little putValue_writable writeString_putValue).trans (if_pos (by decide))

/-- A text that fits is sent behind its length. -/
theorem request_fits (endian : Endian) {root : Value} (h : root.Writable) {text : Bytes}
    (htext : Json.writeString {} root = .ok text) (hfits : text.length + size32 ≤ maxLength) :
    request endian root = .ok (endian.encode32 text.length ++ text) := by
  have hlen : text.length % 2 ^ 32 = text.length := Nat.mod_eq_of_lt
    (Nat.lt_of_le_of_lt (Nat.le_of_add_right_le hfits) (by decide))
  rw [request_of_length endian htext (writeString_ne_zero h htext) hlen, if_pos hfits, List.take_length]

/-- What a read returns while the connection is open. -/
theorem read_eq_some {received : Bytes} {size : Nat} {x : Outcome (Bytes × Bytes)}
    (h : read received false size = some x) :
    size ≤ received.length ∧ x = .ok (received.take size, received.drop size) := by
  unfold read at h
  split at h
  · next hle =>
    cases h
    exact ⟨hle, rfl⟩
  · cases h

theorem reply_eq_some {endian : Endian} {received : Bytes} {r : Outcome (Except Bytes Value)}
    (h : reply endian received false = some r) : size32 ≤ received.length ∧
      min maxLength (endian.decode32 (received.take size32)) ≤ (received.drop size32).length ∧
      r = Json.parseFromStream ((received.drop size32).take
        (min maxLength (endian.decode32 (received.take size32)))) := by
  unfold reply at h
  split at h
  · cases h
  · next hread => cases (read_eq_some hread).2
  next hread =>
  obtain ⟨hheader, heq⟩ := read_eq_some hread
  cases heq
  split at h
  · cases h
  · next hread => cases (read_eq_some hread).2
  next hread =>
  obtain ⟨htext, heq⟩ := read_eq_some hread
  cases heq
  cases h
  exact ⟨hheader, htext, rfl⟩

/-- A text behind its length is read. -/
theorem reply_frame (endian : Endian) {text : Bytes} (h : text.length ≤ maxLength) (closed : Bool) :
    reply endian (endian.encode32 text.length ++ text) closed = some (Json.parseFromStream text) := by
  have hlen := endian.encode32_length text.length
  have hlt : text.length < 2 ^ 32 := Nat.lt_of_le_of_lt h (by decide)
  have hheader : read (endian.encode32 text.length ++ text) closed size32 =
      some (.ok (endian.encode32 text.length, text)) := by
    rw [read, if_pos (by rw [List.length_append, hlen]; exact Nat.le_add_right _ _),
      List.take_left' hlen, List.drop_left' hlen]
  have htext : read text closed text.length = some (.ok (text, [])) := by
    rw [read, if_pos (Nat.le_refl _), List.take_length, List.drop_length]
  rw [reply, hheader]
  dsimp only
  rw [endian.decode32_encode32 hlt, Nat.min_eq_right h, htext]

/-- `query` reads the text when the frame has come. -/
theorem reply_of_prefix {P : Platform} {k : Call} (hk : k.Carried P) (hfits : k.reply.length ≤ maxLength)
    {received : Bytes} (hreceived : received <+: k.frame) {r : Outcome (Except Bytes Value)}
    (h : reply P.endian received false = some r) :
    received = k.frame ∧ r = Json.parseFromStream k.reply := by
  obtain ⟨header, hheader, hsize, hframe⟩ := Framing.next?_eq_some.mp hk.frame
  have hlength : P.endian.decode32 header = k.reply.length := Option.some.inj hsize
  rw [List.append_nil] at hframe
  obtain ⟨hfour, htext, rfl⟩ := reply_eq_some h
  have htake : received.take size32 = header := by
    have hbegins := (List.take_prefix size32 received).trans hreceived
    rw [hframe] at hbegins
    refine List.IsPrefix.eq_of_length (List.prefix_of_prefix_length_le hbegins
      (List.prefix_append header k.reply) ?_) ?_
    · rw [List.length_take_of_le hfour, hheader]
      exact Nat.le_refl _
    · rw [List.length_take_of_le hfour, hheader]
      rfl
  rw [htake, hlength, Nat.min_eq_right hfits] at htext ⊢
  have hall : received = k.frame := by
    apply hreceived.eq_of_length_le
    rw [List.length_drop] at htext
    rw [hframe, List.length_append, hheader]
    change size32 + _ ≤ _
    omega
  have hdrop : received.drop size32 = k.reply := by
    rw [hall, hframe]
    exact List.drop_left' hheader
  rw [hdrop, List.take_length]
  exact ⟨hall, rfl⟩

end Client

/-! ## The replies of the maps -/

namespace Spec

/-- A reply that a client has room for is read back. -/
theorem IsReply.writable {v : Value} (h : IsReply v)
    (hfits : (Json.FastWriter.write v).length ≤ Client.maxLength) :
    v.Writable ∧ v.depth ≤ Json.OurReader.stackLimit := by
  have herror : (Json.recoded (ascii "error")).length ≤ Json.maxNameLength :=
    (Json.recoded_length _).trans (by decide)
  have hdepth : 2 ≤ Json.OurReader.stackLimit := by decide
  cases h with
  | @code code h =>
    have hcodes : ∀ code ∈ ([0, -2, 7, 1, 3, 4, 6] : List Int), -2 ^ 63 ≤ code ∧ code < 2 ^ 63 := by
      decide
    exact ⟨.object (List.forall_mem_singleton.mpr herror)
      (List.forall_mem_singleton.mpr (.int (hcodes code h))), hdepth⟩
  | value v =>
    have hname : (Json.recoded (ascii "value")).length ≤ Json.maxNameLength :=
      (Json.recoded_length _).trans (by decide)
    have hvalue : (Json.recoded v.bytes).length ≤ Json.maxStringLength := by
      have hlt := Json.recoded_length_lt v.bytes
      have hmax : Client.maxLength ≤ Json.maxStringLength := by decide
      have hle : (Json.valueToQuotedStringN v.bytes).length ≤
          (Json.FastWriter.write (readReply (some v))).length := by
        simp only [readReply, Json.FastWriter.write, Json.FastWriter.writeValue,
          Json.FastWriter.writeMembers, List.length_append, List.length_cons]
        omega
      omega
    exact ⟨.object (List.forall_mem_cons.mpr ⟨herror, List.forall_mem_singleton.mpr hname⟩)
      (List.forall_mem_cons.mpr ⟨.int (by decide), List.forall_mem_singleton.mpr (.string hvalue)⟩),
      hdepth⟩

end Spec

theorem Wire.whole_sent {σ : Type} (w : Wire σ) (i : Nat) : (w.whole.conn i).sent = (w.net.conn i).sent := by
  unfold Net.conn
  cases hc : w.net.conns i with
  | none => rw [Wire.whole_conns_none hc]
  | some c => rw [Wire.whole_conns hc]; rfl

/-- A frame that a client sends. -/
theorem Platform.decode_frame (P : Platform) {payload : Bytes} (h : payload.length ≤ maxLength) :
    P.framing.decode (P.endian.encode32 payload.length ++ payload) = [payload] := by
  have hlt : payload.length < 2 ^ 32 := Nat.lt_of_le_of_lt h (by decide)
  have hnext : P.framing.next? (P.endian.encode32 payload.length ++ payload) = some (payload, []) := by
    refine Framing.next?_eq_some.mpr ⟨_, P.endian.encode32_length payload.length, ?_,
      (List.append_nil _).symm⟩
    simp only [Platform.framing, P.endian.decode32_encode32 hlt, if_neg (Nat.not_lt.mpr h)]
  have hnil : P.framing.next? [] = none := Framing.next?_short P.framing.header_pos
  rw [Framing.decode_of_some hnext, Framing.decode_of_none hnil]

theorem Net.mem_of_mem_callsOf {i : Nat} {k : Call} {order : List (Nat × Call)}
    (h : k ∈ Net.callsOf i order) : (i, k) ∈ order := by
  obtain ⟨p, hp, rfl⟩ := List.mem_map.mp h
  obtain ⟨hmem, hj⟩ := List.mem_filter.mp hp
  rw [← of_decide_eq_true hj]
  exact hmem

namespace Client

/-! ## Queries -/

/-- The `k`-th request executed is the client's, and the maps answer it with `v`. -/
structure Executed (w₀ : World) (w : Wire World) (qs : List (Spec.Query × Spec.Env)) (k i : Nat)
    (text : Bytes) (v : Value) : Prop where
  call : ∃ call, w.net.order[k]? = some (i, call) ∧ call.request = text
  query : ∃ q, qs[k]? = some q ∧ Spec.queryOf text = .ok q.1
  reply : (trace (Spec.step (catalogOf w₀.configs)) qs (storeOf w₀.configs w₀.rocks.contents)).1[k]? = some v

/-- A run, with the queries that it is linearized to. -/
structure Serving (P : Platform) (w₀ : World) (w : Wire World) (events : List Event)
    (qs : List (Spec.Query × Spec.Env)) : Prop where
  inv : Wire.Inv P execJson w₀ w events
  linearizable : Net.Linearizable P w₀ events w.whole qs
  carried : ∀ p ∈ w.net.order, p.2.Carried P

theorem carried_of_steps {P : Platform} {file : Bytes} {configs : List Config} {rocks : Rocks}
    (hread : readConfigs rocks.api file = .ok (some configs)) (hlive : rocks.live = fun _ => none)
    (hbounded : Bounded rocks.contents) {events : List Event} {n : Net World}
    (h : Net.Steps P execJson { state := ⟨configs, rocks⟩ } events n) :
    ∀ p ∈ n.order, p.2.Carried P := by
  have hstart : (⟨configs, rocks⟩ : World).Inv ∧ Bounded rocks.contents :=
    ⟨.start (readConfigs_start hread) hlive, hbounded⟩
  have hrequests : ∀ request ∈ n.order.map (·.2.request), request.length ≤ RocksdbService.maxLength := by
    intro request hmem
    obtain ⟨⟨i, k⟩, hk, rfl⟩ := List.mem_map.mp hmem
    refine ((h.inv (.init _)).conn i).request_le _ (List.mem_map_of_mem ?_)
    rw [← h.ordered.own i]
    exact Net.mem_callsOf hk
  obtain ⟨-, hreplies⟩ := run_outputs (fun hlen hi h => execJson_bounded hi hlen h) hrequests hstart
    h.ordered.sequential
  intro p hp
  obtain ⟨hlen, hnul⟩ := hreplies _ (List.mem_map_of_mem hp)
  exact Call.carried_of_le (h.ordered.frames p hp) hlen hnul

theorem exists_serving {P : Platform} {file : Bytes} {configs : List Config} {rocks : Rocks}
    (hread : readConfigs rocks.api file = .ok (some configs))
    (hpaths : (configs.map Config.path).Nodup) (hlive : rocks.live = fun _ => none)
    (hbounded : Bounded rocks.contents) {w : Wire World} {events : List Event}
    (hi : Wire.Inv P execJson ⟨configs, rocks⟩ w events) :
    ∃ qs, Serving P ⟨configs, rocks⟩ w events qs := by
  have hfits : ∀ path family key v, rocks.contents path family key = some v →
      v.length ≤ Json.maxStringLength :=
    fun path family key v h => (hbounded path family key v h).trans (by decide)
  obtain ⟨qs, hlin⟩ := Net.linearizable_of_simulates (place_biUnique hpaths)
    (Net.simulates_start hread hlive (storeOf_represents hfits)) hi.steps
  have hcarried := carried_of_steps hread hlive hbounded hi.steps
  exact ⟨qs, hi, hlin, hcarried⟩

namespace Serving

variable {P : Platform} {w₀ : World} {w : Wire World} {events : List Event}
  {qs : List (Spec.Query × Spec.Env)} {i : Nat} {text : Bytes} {r : Outcome (Except Bytes Value)}

/-- What was read came with a call, and a client that has sent one query has only one. -/
theorem exists_call (h : Serving P w₀ w events qs) {root : Value} (hroot : root.Writable)
    (htext : Json.writeString {} root = .ok text) (hfits : text.length + size32 ≤ maxLength)
    (hsent : request P.endian root = .ok (w.net.conn i).sent)
    (hreply : reply P.endian (w.transfers i).received false = some r) :
    ∃ (k : Nat) (call : Call), w.net.order[k]? = some (i, call) ∧ Net.callsOf i w.net.order = [call] ∧
      call.request = text ∧ (w.transfers i).received <+: call.frame := by
  have hlen : text.length ≤ RocksdbService.maxLength :=
    Nat.le_trans (Nat.le_of_add_right_le hfits) (by decide)
  rw [request_fits P.endian hroot htext hfits] at hsent
  replace hsent := (Except.ok.inj hsent).symm
  have hbegins := (h.inv.received_le i).2
  have hrequests : (Net.callsOf i w.net.order).map Call.request <+: [text] := by
    rw [← P.decode_frame hlen, ← hsent, ← Wire.whole_sent]
    exact ((h.linearizable.moments events [] w.whole (List.append_nil _).symm h.inv.steps).2 i).2
  cases hcalls : Net.callsOf i w.net.order with
  | nil =>
    rw [hcalls] at hbegins
    have hnil := List.prefix_nil.mp hbegins
    have hfour := (reply_eq_some hreply).1
    rw [hnil] at hfour
    exact absurd hfour (by decide)
  | cons call calls =>
    rw [hcalls, List.map_cons, List.cons_prefix_cons, List.prefix_nil, List.map_eq_nil_iff] at hrequests
    obtain ⟨hrequest, rfl⟩ := hrequests
    rw [hcalls, List.map_singleton, List.flatten_singleton] at hbegins
    obtain ⟨k, hk⟩ := List.mem_iff_getElem?.mp
      (Net.mem_of_mem_callsOf (hcalls ▸ List.mem_singleton_self call))
    exact ⟨k, call, hk, rfl, hrequest, hbegins⟩

/-- The requests executed are the queries, in the same order. -/
theorem executed (h : Serving P w₀ w events qs) {k : Nat} {call : Call}
    (hk : w.net.order[k]? = some (i, call)) :
    ∃ v, Executed w₀ w qs k i call.request v ∧ Json.FastWriter.write v = call.reply := by
  have hquery : (w.net.order.map fun p => Spec.queryOf p.2.request)[k]? = _ :=
    congrArg (·[k]?) h.linearizable.queries
  have hreply : (w.net.order.map (·.2.reply))[k]? = _ := congrArg (·[k]?) h.linearizable.replies
  rw [List.getElem?_map, List.getElem?_map, hk, Option.map_some] at hquery hreply
  obtain ⟨q, hq, hquery⟩ := Option.map_eq_some_iff.mp hquery.symm
  obtain ⟨v, hv, hwrite⟩ := Option.map_eq_some_iff.mp hreply.symm
  exact ⟨v, ⟨⟨call, hk, rfl⟩, ⟨q, hq, hquery.symm⟩, hv⟩, hwrite⟩

/-- A reply for which there is room is what `query` returns. -/
theorem reply_eq (h : Serving P w₀ w events qs) {k : Nat} {call : Call} {v : Value}
    (hk : w.net.order[k]? = some (i, call)) (hv : Executed w₀ w qs k i call.request v)
    (hwrite : Json.FastWriter.write v = call.reply) {received : Bytes} (hbegins : received <+: call.frame)
    (hreply : reply P.endian received false = some r)
    (hroom : (Json.FastWriter.write v).length ≤ maxLength) : r = .ok (.ok v.reread) := by
  have hcarried := h.carried _ (List.mem_of_getElem? hk)
  obtain ⟨-, hr⟩ := reply_of_prefix hcarried (by rw [← hwrite]; exact hroom) hbegins hreply
  have hreplies := trace_outputs (Spec.isReply_step (catalogOf w₀.configs)) qs
    (storeOf w₀.configs w₀.rocks.contents)
  obtain ⟨hv, hdepth⟩ := (hreplies v (List.mem_of_getElem? hv.reply)).writable hroom
  rw [hr, ← hwrite, hv.read_write hdepth]

end Serving

/-- The reply that `query` has read is the one of the maps to the request that it sent, which is executed
once. -/
theorem query_answered {P : Platform} {file : Bytes} {configs : List Config} {rocks : Rocks}
    (hread : readConfigs rocks.api file = .ok (some configs))
    (hpaths : (configs.map Config.path).Nodup) (hlive : rocks.live = fun _ => none)
    (hbounded : Bounded rocks.contents) {es : List WireEvent} {w : Wire World}
    (hrun : es.foldlM (Wire.next P execJson) { net := { state := ⟨configs, rocks⟩ } } = some w)
    {root : Value} (hroot : root.Writable) {text : Bytes} (htext : Json.writeString {} root = .ok text)
    (hfits : text.length + size32 ≤ maxLength) {i : Nat}
    (hsent : request P.endian root = .ok (w.net.conn i).sent) {r : Outcome (Except Bytes Value)}
    (hreply : reply P.endian (w.transfers i).received false = some r) :
    ∃ (events : List Event) (qs : List (Spec.Query × Spec.Env)) (k : Nat) (v : Value),
      Net.Linearizable P ⟨configs, rocks⟩ events w.whole qs ∧
      Executed ⟨configs, rocks⟩ w qs k i text v ∧ (Net.callsOf i w.net.order).length = 1 ∧
      Json.parseFromStream text = .ok (.ok root.reread) ∧
      ((Json.FastWriter.write v).length ≤ maxLength → r = .ok (.ok v.reread)) := by
  obtain ⟨events, hi⟩ := (Wire.Inv.init P execJson _).run hrun
  obtain ⟨qs, h⟩ := exists_serving hread hpaths hlive hbounded hi
  obtain ⟨k, call, hk, hcalls, rfl, hbegins⟩ := h.exists_call hroot htext hfits hsent hreply
  obtain ⟨v, hv, hwrite⟩ := h.executed hk
  refine ⟨_, qs, k, v, h.linearizable, hv, congrArg List.length hcalls, ?_,
    h.reply_eq hk hv hwrite hbegins hreply⟩
  obtain ⟨w, text', hwritten, hspell⟩ := Json.writeString_spells indentation_blank rfl hroot
  have hparse := hspell.parseFromStream w {}
  rw [List.append_nil, ← Except.ok.inj (htext.symm.trans hwritten)] at hparse
  split at hparse
  · exact hparse
  · -- the server would not have executed it
    obtain ⟨q, -, hquery⟩ := hv.query
    rw [Spec.queryOf, requestOf, hparse] at hquery
    cases hquery

theorem reply_zero : reply .little (Endian.little.encode32 12 ++ ascii "\x7b\"error\":0\x7d\n") false =
    some (.ok (.ok (errorReply 0))) := by
  have hparse : Json.parseFromStream (ascii "\x7b\"error\":0\x7d\n") = .ok (.ok (errorReply 0)) :=
    Json.parseFromStream_eq (by decide +kernel)
  have hroom : (ascii "\x7b\"error\":0\x7d\n").length ≤ maxLength := by decide
  rw [← hparse]
  exact reply_frame .little hroom false

theorem emptyRocks_bounded : Bounded emptyRocks.contents := by
  intro path family key value h
  cases h

/-- The header is read in two parts. -/
def putInPieces : List WireEvent := [
  .net (.connect 0),
  .net (.accept 0),
  .net (.deliver 0 (Endian.little.encode32 putText.length ++ putText)),
  .readSome 0 (some 1),
  .readSome 0 (some 3),
  .net (.complete 0 (.readSome ⟨0, 0⟩ 64 .doRead) (some 64)),
  .writeSome 0 (some 16),
  .writeOp 0]

theorem query_answered_put : ∃ w : Wire World,
    reply .little (w.transfers 0).received false = some (.ok (.ok (errorReply 0))) ∧
    ∃ (events : List Event) (qs : List (Spec.Query × Spec.Env)) (k : Nat) (v : Value),
      Net.Linearizable ⟨.little, 0⟩ ⟨[plainConfig], emptyRocks⟩ events w.whole qs ∧
      Executed ⟨[plainConfig], emptyRocks⟩ w qs k 0 putText v ∧
      (Net.callsOf 0 w.net.order).length = 1 ∧
      Json.parseFromStream putText = .ok (.ok putValue.reread) ∧
      ((Json.FastWriter.write v).length ≤ maxLength →
        (.ok (.ok (errorReply 0)) : Outcome (Except Bytes Value)) = .ok (.ok v.reread)) := by
  have hrun : ((putInPieces.foldlM (Wire.next ⟨.little, 0⟩ execJson)
      { net := { state := ⟨[plainConfig], emptyRocks⟩ } }).map
        fun w => ((w.transfers 0).received, (w.net.conn 0).sent)) =
      some (Endian.little.encode32 12 ++ ascii "\x7b\"error\":0\x7d\n",
        Endian.little.encode32 putText.length ++ putText) := by decide +kernel
  obtain ⟨w, hw, hseen⟩ := Option.map_eq_some_iff.mp hrun
  obtain ⟨hreceived, hsent⟩ := Prod.mk.inj hseen
  have hfits : putText.length + size32 ≤ maxLength := by decide
  have hreply : reply .little (w.transfers 0).received false = some (.ok (.ok (errorReply 0))) := by
    rw [hreceived]
    exact reply_zero
  have hrequest : request .little putValue = .ok (w.net.conn 0).sent := by
    rw [hsent]
    exact request_fits .little putValue_writable writeString_putValue hfits
  exact ⟨w, hreply, @query_answered ⟨.little, 0⟩ _ _ emptyRocks readConfigs_plainFile (by decide) rfl emptyRocks_bounded
    _ _ hw _ putValue_writable _ writeString_putValue hfits _ hrequest _ hreply⟩

end Client

end RocksdbService
