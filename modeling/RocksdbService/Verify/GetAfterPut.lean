import RocksdbService.Verify.Batch
import RocksdbService.Verify.Client

/-! # A get after a put

What is asked for after a reply has come is executed after what the reply is for. So a client gets the
value that another one has been told is put, if nothing else has been put there since
(`get_after_put`). -/

namespace RocksdbService

open Outcome
open Json (Value JString)

namespace Spec

theorem errorReply_reread (code : Int) : (errorReply code).reread = errorReply code := by
  have hname : Json.recoded (ascii "error") = ascii "error" := by decide
  simp only [errorReply, Value.reread, Value.rereadMembers, hname]
  rfl

theorem errorReply_room {code : Int} (h : code ∈ ([0, -2, 7, 1, 3, 4, 6] : List Int)) :
    (Json.FastWriter.write (errorReply code)).length ≤ Client.maxLength := by
  have hcodes : ∀ code ∈ ([0, -2, 7, 1, 3, 4, 6] : List Int),
      (Json.intToString code).length + 11 ≤ Client.maxLength := by decide
  rw [write_errorReply_length]
  exact hcodes code h

end Spec

namespace Client

/-- The maps before a query. -/
def stateBefore (w₀ : World) (qs : List (Spec.Query × Spec.Env)) (k : Nat) : Spec.State :=
  (trace (Spec.step (catalogOf w₀.configs)) (qs.take k) (storeOf w₀.configs w₀.rocks.contents)).2

namespace Serving

variable {P : Platform} {w₀ : World} {w w' : Wire World} {events events' : List Event}
  {qs qs' : List (Spec.Query × Spec.Env)} {i k : Nat} {call : Call}

theorem order_grows (h : Serving P w₀ w events qs) (h' : Serving P w₀ w' (events ++ events') qs') :
    w.net.order <+: w'.net.order :=
  (h'.linearizable.moments events events' w.whole rfl h.inv.steps).1

/-- What is executed for a client that has sent nothing yet comes later. -/
theorem order_le (h : Serving P w₀ w events qs) (hsent : (w.net.conn i).sent = [])
    (hgrows : w.net.order <+: w'.net.order) (hk : w'.net.order[k]? = some (i, call)) :
    w.net.order.length ≤ k := by
  have hnil : P.framing.decode [] = [] :=
    Framing.decode_of_none (Framing.next?_short P.framing.header_pos)
  have hrequests := ((h.linearizable.moments events [] w.whole (List.append_nil _).symm h.inv.steps).2 i).2
  rw [w.whole_sent, hsent, hnil, List.prefix_nil, List.map_eq_nil_iff] at hrequests
  refine Nat.not_lt.mp fun hlt => ?_
  have hmem : (i, call) ∈ w.net.order := by
    rw [List.prefix_iff_getElem?.mp hgrows k hlt] at hk
    exact Option.some.inj hk ▸ List.getElem_mem hlt
  have hcall : call ∈ Net.callsOf i w.net.order := Net.mem_callsOf hmem
  rw [show Net.callsOf i w.net.order = [] from hrequests] at hcall
  cases hcall

theorem exists_order (h : Serving P w₀ w events qs) {q : Spec.Query × Spec.Env} (hk : qs[k]? = some q) :
    ∃ p, w.net.order[k]? = some p ∧ Spec.queryOf p.2.request = .ok q.1 := by
  have hqueries : (w.net.order.map fun p => Spec.queryOf p.2.request)[k]? = _ :=
    congrArg (·[k]?) h.linearizable.queries
  rw [List.getElem?_map, List.getElem?_map, hk] at hqueries
  exact Option.map_eq_some_iff.mp hqueries

theorem length_le (h : Serving P w₀ w events qs) {p : Nat × Call} (hk : w.net.order[k]? = some p) :
    k ≤ qs.length := by
  have hlength := congrArg List.length h.linearizable.queries
  rw [List.length_map, List.length_map] at hlength
  exact hlength ▸ (List.getElem?_eq_some_iff.mp hk).1.le

/-- What `query` returns is an error code, and nothing is changed, or what the maps answer. -/
theorem answered (h : Serving P w₀ w events qs) {q : Spec.Query}
    (hk : w.net.order[k]? = some (i, call)) (hq : Spec.queryOf call.request = .ok q)
    {received : Bytes} (hbegins : received <+: call.frame) {r : Outcome (Except Bytes Value)}
    (hreply : reply P.endian received false = some r) :
    ∃ env, qs[k]? = some (q, env) ∧
      ((∃ code, q.Fails (catalogOf w₀.configs) env code ∧ r = .ok (.ok (errorReply code))) ∨
        q.Served (catalogOf w₀.configs) env (stateBefore w₀ qs k)
            (Spec.step (catalogOf w₀.configs) (q, env) (stateBefore w₀ qs k)) ∧
          ((Json.FastWriter.write (q.reply (stateBefore w₀ qs k))).length ≤ maxLength →
            r = .ok (.ok (q.reply (stateBefore w₀ qs k)).reread))) := by
  obtain ⟨v, hv, hwrite⟩ := h.executed hk
  obtain ⟨⟨q', env⟩, hqs, hq'⟩ := hv.query
  rw [show q' = q from Except.ok.inj (hq'.symm.trans hq)] at hqs
  have hstep : v = (Spec.step (catalogOf w₀.configs) (q, env) (stateBefore w₀ qs k)).1 := by
    have hstep := hv.reply
    rw [trace_getElem?, hqs, Option.map_some] at hstep
    exact (Option.some.inj hstep).symm
  have hr := h.reply_eq hk hv hwrite hbegins hreply
  refine ⟨env, hqs, ?_⟩
  rcases Spec.step_cases (catalogOf w₀.configs) q env (stateBefore w₀ qs k) with ⟨code, hcode, heq⟩ | hserved
  · left
    rw [heq] at hstep
    refine ⟨code, hcode, ?_⟩
    rw [hr (hstep ▸ Spec.errorReply_room (List.mem_cons_of_mem _ hcode.code_mem)), hstep,
      Spec.errorReply_reread]
  · right
    rw [hserved.reply] at hstep
    exact ⟨hserved, hstep ▸ hr⟩

/-- A query that is answered with 0 has been served. -/
theorem served_of_zero (h : Serving P w₀ w events qs) {q : Spec.Query}
    (hk : w.net.order[k]? = some (i, call)) (hq : Spec.queryOf call.request = .ok q)
    {received : Bytes} (hbegins : received <+: call.frame)
    (hreply : reply P.endian received false = some (.ok (.ok (errorReply 0)))) :
    ∃ env, qs[k]? = some (q, env) ∧ q.Served (catalogOf w₀.configs) env (stateBefore w₀ qs k)
      (Spec.step (catalogOf w₀.configs) (q, env) (stateBefore w₀ qs k)) := by
  obtain ⟨env, hqs, ⟨code, hfails, hr⟩ | ⟨hserved, -⟩⟩ := h.answered hk hq hbegins hreply
  · cases errorReply_inj (Except.ok.inj (Except.ok.inj hr))
    exact absurd hfails.code_mem (by decide)
  · exact ⟨env, hqs, hserved⟩

theorem opened_of_lt (h : Serving P w₀ w events qs) {j k : Nat} (hlt : j < k) {name : Bytes}
    {command command' : Command} {env env' : Spec.Env} (hj : qs[j]? = some (.named name command, env))
    (hk : qs[k]? = some (.named name command', env')) (hopened : env.opened = true) :
    env'.opened = true := by
  obtain ⟨hjlt, hj⟩ := List.getElem?_eq_some_iff.mp hj
  obtain ⟨hklt, hk⟩ := List.getElem?_eq_some_iff.mp hk
  have hstays := List.pairwise_iff_getElem.mp h.linearizable.steady.stays j k hjlt hklt hlt
  rw [hj, hk] at hstays
  exact hstays name command command' rfl rfl hopened

end Serving

/-- A client that sends a get after another one has been told that its value is put gets this value, if
no request that was executed since the put was sent has put another one. Otherwise RocksDB has refused a
call, or `get_cf` does not find the family in the configuration. -/
theorem get_after_put {P : Platform} {file : Bytes} {configs : List Config} {rocks : Rocks}
    (hread : readConfigs rocks.api file = .ok (some configs))
    (hpaths : (configs.map Config.path).Nodup) (hlive : rocks.live = fun _ => none)
    (hbounded : Bounded rocks.contents) {es₀ es₁ es₂ : List WireEvent} {w₀ w₁ w : Wire World}
    (hrun₀ : es₀.foldlM (Wire.next P execJson) { net := { state := ⟨configs, rocks⟩ } } = some w₀)
    (hrun₁ : es₁.foldlM (Wire.next P execJson) w₀ = some w₁)
    (hrun₂ : es₂.foldlM (Wire.next P execJson) w₁ = some w)
    {dbName family key : Bytes} {value : JString} {i j : Nat}
    -- the put
    {put : Value} (hput : put.Writable) {putText : Bytes} (hputText : Json.writeString {} put = .ok putText)
    (hputFits : putText.length + size32 ≤ maxLength) {q : Spec.Query}
    (hq : Spec.queryOf putText = .ok q) (hwrites : q.writes dbName family key = some value)
    (hbefore : (w₀.net.conn i).sent = []) (hputSent : request P.endian put = .ok (w₁.net.conn i).sent)
    (hdone : reply P.endian (w₁.transfers i).received false = some (.ok (.ok (errorReply 0))))
    -- the get
    {get : Value} (hget : get.Writable) {getText : Bytes} (hgetText : Json.writeString {} get = .ok getText)
    (hgetFits : getText.length + size32 ≤ maxLength) {q' : Spec.Query}
    (hq' : Spec.queryOf getText = .ok q') (hreads : q'.reads = some (dbName, family, key))
    (hafter : (w₁.net.conn j).sent = []) (hgetSent : request P.endian get = .ok (w.net.conn j).sent)
    {r : Outcome (Except Bytes Value)}
    (hreply : reply P.endian (w.transfers j).received false = some r)
    (hroom : (Json.FastWriter.write (Spec.readReply (some value))).length ≤ maxLength)
    -- the others
    (hothers : ∀ p ∈ w.net.order.drop w₀.net.order.length, ∀ q₁, Spec.queryOf p.2.request = .ok q₁ →
      ∀ v, q₁.writes dbName family key = some v → v = value) :
    r = .ok (.ok (Spec.readReply (some value)).reread) ∨
      (r = .ok (.ok (errorReply (-2))) ∧ ¬ ∀ n, rocks.answers n = .serve) ∨
      (r = .ok (.ok (errorReply 7)) ∧ ∀ families ∈ catalogOf configs dbName, family ∉ families) := by
  obtain ⟨events₀, hi₀⟩ := (Wire.Inv.init P execJson _).run hrun₀
  obtain ⟨events₁, hi₁⟩ := hi₀.run hrun₁
  obtain ⟨events₂, hi₂⟩ := hi₁.run hrun₂
  obtain ⟨qs₀, h₀⟩ := exists_serving hread hpaths hlive hbounded hi₀
  obtain ⟨qs₁, h₁⟩ := exists_serving hread hpaths hlive hbounded hi₁
  obtain ⟨qs, h⟩ := exists_serving hread hpaths hlive hbounded hi₂
  have hgrows₀ := h₀.order_grows h₁
  have hgrows₁ := h₁.order_grows h
  -- the call of the put
  obtain ⟨k₁, call₁, hk₁, -, rfl, hbegins₁⟩ := h₁.exists_call hput hputText hputFits hputSent hdone
  have hle₁ := h₀.order_le hbefore hgrows₀ hk₁
  obtain ⟨hlt₁, heq₁⟩ := List.getElem?_eq_some_iff.mp hk₁
  replace hk₁ := heq₁ ▸ List.prefix_iff_getElem?.mp hgrows₁ k₁ hlt₁
  -- the call of the get
  obtain ⟨k, call, hk, -, rfl, hbegins⟩ := h.exists_call hget hgetText hgetFits hgetSent hreply
  have hlt : k₁ < k := Nat.lt_of_lt_of_le hlt₁ (h₁.order_le hafter hgrows₁ hk)
  obtain ⟨env₁, hqs₁, hserved₁⟩ := h.served_of_zero hk₁ hq hbegins₁ hdone
  -- the value stays there
  have hstored : stateBefore ⟨configs, rocks⟩ qs k dbName family key = some value := by
    refine trace_since (I := fun s : Spec.State => s dbName family key = some value) hqs₁ ?_ hlt
      (h.length_le hk) ?_
    · exact (hserved₁.state dbName family key).trans (by rw [hwrites, Option.some_or])
    · rintro m ⟨q₁, env₁⟩ s hm - hqs₁ hs
      obtain ⟨p, hp, hq₁⟩ := h.exists_order hqs₁
      refine Spec.step_keeps (hothers p ?_ q₁ hq₁) hs
      exact List.mem_of_getElem? (List.getElem?_drop.trans (Nat.add_sub_cancel' (hle₁.trans hm.le) ▸ hp))
  obtain ⟨env, hqs, ⟨code, hfails, hr⟩ | ⟨-, hr⟩⟩ := h.answered hk hq' hbegins hreply
  · obtain ⟨name, command, families, rfl, hname, hcatalog, hopened₁⟩ := hserved₁.known
    cases Spec.Query.name_of_writes hwrites
    right
    refine (hfails.of_reads hreads hname ⟨families, hcatalog⟩ ?_).imp ?_ ?_
    · obtain ⟨command', rfl⟩ := Spec.Query.name_of_reads hreads
      exact h.opened_of_lt hlt hqs₁ hqs hopened₁
    · rintro ⟨rfl, hrefused⟩
      refine ⟨hr, fun hserve => ?_⟩
      cases h.linearizable.steady.served hserve _ (List.mem_of_getElem? hqs)
      cases hrefused
    · rintro ⟨rfl, hfamilies⟩
      exact ⟨hr, hfamilies⟩
  · left
    have hvalue : q'.reply (stateBefore ⟨configs, rocks⟩ qs k) = Spec.readReply (some value) := by
      simp only [Spec.Query.reply, hreads, hstored]
    rw [hvalue] at hr
    exact hr hroom

/-! ## Two clients -/

def getValue : Value := .object [
  (ascii "dbname", textValue "a"),
  (ascii "key", textValue "k"),
  (ascii "op", textValue "get")]

def getText : Bytes :=
  ascii "\x7b\n\t\"dbname\" : \"a\",\n\t\"key\" : \"k\",\n\t\"op\" : \"get\"\n\x7d"

theorem writeString_getValue : Json.writeString {} getValue = .ok getText := by
  have hvalues : textValue "a" = .string ⟨ascii "a", by decide⟩ ∧
      textValue "k" = .string ⟨ascii "k", by decide⟩ ∧
      textValue "get" = .string ⟨ascii "get", by decide⟩ :=
    ⟨textValue_eq _, textValue_eq _, textValue_eq _⟩
  rw [getValue, hvalues.1, hvalues.2.1, hvalues.2.2]
  simp only [Json.writeString, Json.BuiltStyledStreamWriter.write,
    Json.BuiltStyledStreamWriter.writeValue, Json.BuiltStyledStreamWriter.writeMembers]
  decide +kernel

theorem getValue_writable : getValue.Writable := by
  refine .object ?_ ?_
  · simp only [List.forall_mem_cons]
    exact ⟨recoded_short (by decide), recoded_short (by decide), recoded_short (by decide),
      List.forall_mem_nil _⟩
  · simp only [List.forall_mem_cons]
    exact ⟨textValue_writable (by decide), textValue_writable (by decide), textValue_writable (by decide),
      List.forall_mem_nil _⟩

theorem queryOf_putText : Spec.queryOf putText = .ok putQuery := by
  have hparse : Json.parseFromStream putText = .ok (.ok putValue) :=
    Json.parseFromStream_eq (by decide +kernel)
  simp only [Spec.queryOf, requestOf, hparse]
  rfl

theorem queryOf_getText : Spec.queryOf getText = .ok getQuery := by
  have hparse : Json.parseFromStream getText = .ok (.ok getValue) :=
    Json.parseFromStream_eq (by decide +kernel)
  simp only [Spec.queryOf, requestOf, hparse]
  rfl

/-- Another client, whose header comes in one part. -/
def getInPieces : List WireEvent := [
  .net (.connect 1),
  .net (.accept 1),
  .net (.deliver 1 (Endian.little.encode32 getText.length ++ getText)),
  .readSome 1 (some 4),
  .net (.complete 1 (.readSome ⟨0, 0⟩ 48 .doRead) (some 48)),
  .writeSome 1 (some 28)]

/-- The reply to the put has come before its `write_op` is called. -/
theorem get_after_put_pieces : ∃ (w : Wire World) (r : Outcome (Except Bytes Value)),
    reply .little (w.transfers 1).received false = some r ∧
      (r = .ok (.ok (Spec.readReply (some ⟨ascii "v", by decide⟩)).reread) ∨
        (r = .ok (.ok (errorReply (-2))) ∧ ¬ ∀ n, emptyRocks.answers n = .serve) ∨
        (r = .ok (.ok (errorReply 7)) ∧
          ∀ families ∈ catalogOf [plainConfig] (ascii "a"), kDefaultColumnFamilyName ∉ families)) := by
  have hrun : ((putInPieces.dropLast.foldlM (Wire.next ⟨.little, 0⟩ execJson)
      { net := { state := ⟨[plainConfig], emptyRocks⟩ } }).bind fun w₁ =>
        (getInPieces.foldlM (Wire.next ⟨.little, 0⟩ execJson) w₁).map fun w =>
          (((w₁.transfers 0).received, (w₁.net.conn 0).sent, (w₁.net.conn 1).sent),
            (w.transfers 1).received, (w.net.conn 1).sent, w.net.order.map (·.2.request))) =
      some ((Endian.little.encode32 12 ++ ascii "\x7b\"error\":0\x7d\n",
          Endian.little.encode32 putText.length ++ putText, []),
        Endian.little.encode32 24 ++ ascii "\x7b\"error\":0,\"value\":\"v\"\x7d\n",
        Endian.little.encode32 getText.length ++ getText, [putText, getText]) := by decide +kernel
  obtain ⟨w₁, hw₁, hrun⟩ := Option.bind_eq_some_iff.mp hrun
  obtain ⟨w, hw, hseen⟩ := Option.map_eq_some_iff.mp hrun
  simp only [Prod.mk.injEq] at hseen
  obtain ⟨⟨hreceived₁, hsent₁, hafter⟩, hreceived, hsent, horder⟩ := hseen
  have hputFits : putText.length + size32 ≤ maxLength := by decide
  have hgetFits : getText.length + size32 ≤ maxLength := by decide
  have hdone : reply .little (w₁.transfers 0).received false = some (.ok (.ok (errorReply 0))) := by
    rw [hreceived₁]
    exact reply_zero
  have hreply := reply_frame .little
    (by decide : (ascii "\x7b\"error\":0,\"value\":\"v\"\x7d\n").length ≤ maxLength) false
  have hothers : ∀ p ∈ w.net.order.drop 0, ∀ q₁, Spec.queryOf p.2.request = .ok q₁ →
      ∀ v, q₁.writes (ascii "a") kDefaultColumnFamilyName (ascii "k") = some v →
        v = ⟨ascii "v", by decide⟩ := by
    intro p hp q₁ hq₁ v hv
    have hmem : p.2.request ∈ [putText, getText] := horder ▸ List.mem_map_of_mem hp
    simp only [List.mem_cons, List.not_mem_nil, or_false] at hmem
    rcases hmem with heq | heq
    · rw [heq, queryOf_putText] at hq₁
      cases hq₁
      exact (Option.some.inj hv).symm
    · rw [heq, queryOf_getText] at hq₁
      cases hq₁
      cases hv
  refine ⟨w, _, by rw [hreceived]; exact hreply, ?_⟩
  exact @get_after_put ⟨.little, 0⟩ _ _ emptyRocks readConfigs_plainFile (by decide) rfl
    emptyRocks_bounded [] _ _ _ _ _
    rfl hw₁ hw _ _ _ _ 0 1 _ putValue_writable _ writeString_putValue hputFits _ queryOf_putText rfl rfl
    (by rw [hsent₁]; exact request_fits .little putValue_writable writeString_putValue hputFits) hdone
    _ getValue_writable _ writeString_getValue hgetFits _ queryOf_getText rfl hafter
    (by rw [hsent]; exact request_fits .little getValue_writable writeString_getValue hgetFits)
    _ (by rw [hreceived]; exact hreply) (by decide) hothers

end Client

end RocksdbService
