import Mathlib.Data.List.Induction
import RocksdbService.Verify.Interleaving
import RocksdbService.Verify.PutGet
import RocksdbService.Verify.Refinement

/-! # The server is a linearizable store

Clients that send requests at the same time see the maps of `Spec` as if each request took effect at
one moment between its last byte and its reply (`linearizable_of_steps`): the executed requests are in
one order, in which the replies are those of `Spec`; a request that is not complete at some moment
comes after all that have been executed by then, and one that has been answered is among these. No
request is left out because its fields have the wrong type, since what is executed is never stopped by
them, and none is refused if RocksDB serves every call (`Steady.served`). -/

namespace RocksdbService

open Outcome
open Json (Value JString)

namespace Spec

/-- The query that a payload makes. If the fields of the operation cannot be read, a request is executed
only where the operation is not due, and any operation stands for it. -/
def queryOf (payload : Bytes) : Outcome Query := do
  match ← requestOf payload with
  | .rejected => return .rejected
  | .named dbName (.ok command) => return .named dbName command
  | .named dbName (.error _) => return .named dbName .unknown

end Spec

/-- Where the operation is not due it does not matter which it is. -/
theorem World.request_of_error {w : World} {name : Bytes} {f : Fault} {p : Value × World}
    (h : w.request name (.error f) = .ok p) (command : Outcome Command) :
    w.request name command = .ok p := by
  by_cases hname : name = []
  · rw [World.request, if_pos hname] at h ⊢
    exact h
  cases hfind : w.find? name with
  | none =>
    rw [World.request, if_neg hname, hfind] at h ⊢
    exact h
  | some q =>
    obtain ⟨i, c⟩ := q
    rw [World.request_of_find hname hfind] at h ⊢
    obtain ⟨⟨⟨reply, item⟩, rocks⟩, hopen, h⟩ := bind_eq_ok.mp h
    rw [hopen, ok_bind]
    dsimp only at h ⊢
    split at h
    · obtain ⟨_, hcommand, -⟩ := bind_eq_ok.mp h
      cases hcommand
    · next hclosed =>
      rw [if_neg hclosed]
      exact h

/-! ## The answers of RocksDB -/

namespace World

/-- A request for the database `name` comes to no closed one. -/
def opened (w : World) (name : Bytes) : Bool := (w.target name).all Config.isOpen

theorem target_eq_some {w : World} {name : Bytes} {c : Config} (h : w.target name = some c) :
    name ≠ [] ∧ ∃ i, w.find? name = some (i, c) := by
  unfold target at h
  split at h
  · cases h
  · next hname =>
    obtain ⟨⟨i, c'⟩, hfind, rfl⟩ := Option.map_eq_some_iff.mp h
    exact ⟨hname, i, hfind⟩

theorem SameSettings.target_none {w w' : World} (h : SameSettings w w') {name : Bytes}
    (hnone : w.target name = none) : w'.target name = none := by
  refine Option.eq_none_iff_forall_ne_some.mpr fun c hc => ?_
  obtain ⟨hname, i, hfind⟩ := target_eq_some hc
  obtain ⟨c', hfind', -⟩ := h.symm.find? hfind
  rw [target_eq hname hfind'] at hnone
  cases hnone

theorem opened_of_execReply {w w' : World} (hw : w.Inv) {inp : Bytes} {reply : Value}
    (h : execReply inp w = .ok (reply, w')) {name : Bytes} (hopened : w.opened name = true) :
    w'.opened name = true := by
  unfold opened at hopened ⊢
  cases hc : w.target name with
  | none => rw [(hw.execReply h).2.target_none hc]; rfl
  | some c =>
    rw [hc] at hopened
    obtain ⟨hname, i, hfind⟩ := target_eq_some hc
    obtain ⟨c', hfind', -⟩ := (hw.execReply h).2.find? hfind
    cases (execReply_isOpen hw h (find?_eq_some hfind).1 hopened).symm.trans (find?_eq_some hfind').1
    rw [target_eq hname hfind']
    exact hopened

end World

/-- What holds of the answers of RocksDB to a query that takes the service from one state to another. -/
structure Observed (w w' : World) (q : Spec.Query) (env : Spec.Env) : Prop where
  served : (∀ n, w.rocks.answers n = .serve) → env = ⟨true, true⟩
  opened : ∀ {name command}, q = .named name command → w.opened name = true → env.opened = true
  stays : ∀ {name command}, q = .named name command → env.opened = true → w'.opened name = true

theorem observed_env {w w' : World} (hw : w.Inv) {name : Bytes} {command : Command} {reply : Value}
    (h : w.request name (.ok command) = .ok (reply, w')) :
    Observed w w' (.named name command) (w.env (.named name command)) := by
  have hserved : (∀ n, w.rocks.answers n = .serve) → w.env (.named name command) = ⟨true, true⟩ :=
    fun hserve => World.env_of_serves hserve _
  cases hc : w.target name with
  | none =>
    refine ⟨hserved, fun heq _ => ?_, fun heq _ => ?_⟩
    · simp only [World.env, hc]
    · cases heq
      rw [World.opened, (hw.request h).2.target_none hc]
      rfl
  | some c =>
    have henv := World.env_eq hc command
    refine ⟨hserved, fun heq hopened => ?_, fun heq hopened => ?_⟩
    · cases heq
      rw [World.opened, hc] at hopened
      rw [henv]
      exact decide_eq_true (.inl hopened)
    · cases heq
      rw [henv] at hopened
      obtain ⟨hname, i, hfind⟩ := World.target_eq_some hc
      obtain ⟨c', hconfigs, hopens, -⟩ := World.request_set hname hfind h
      obtain ⟨c₁, hfind₁, -⟩ := (hw.request h).2.find? hfind
      have hi := (World.find?_eq_some hfind).1
      have hself : w'.configs[i]? = some c' := by
        rw [hconfigs]
        exact List.getElem?_set_self (List.getElem?_eq_some_iff.mp hi).1
      cases hself.symm.trans (World.find?_eq_some hfind₁).1
      rw [World.opened, World.target_eq hname hfind₁]
      exact hopens.mpr (of_decide_eq_true hopened)

/-- What the answers of RocksDB to a sequence of queries have in common. -/
structure Steady (w : World) (qs : List (Spec.Query × Spec.Env)) : Prop where
  /-- If RocksDB serves every call, every database is open when it is due, and every operation served. -/
  served : (∀ n, w.rocks.answers n = .serve) → ∀ q ∈ qs, q.2 = ⟨true, true⟩
  opened : ∀ q ∈ qs, ∀ name command, q.1 = .named name command → w.opened name = true →
    q.2.opened = true
  /-- A database stays open. -/
  stays : qs.Pairwise fun q q' => ∀ name command command', q.1 = .named name command →
    q'.1 = .named name command' → q.2.opened = true → q'.2.opened = true

theorem Steady.cons {w w₁ : World} {q : Spec.Query} {env : Spec.Env} {qs : List (Spec.Query × Spec.Env)}
    (h : Steady w₁ qs) (hq : Observed w w₁ q env) (hanswers : w₁.rocks.answers = w.rocks.answers)
    (hopened : ∀ {name}, w.opened name = true → w₁.opened name = true) : Steady w ((q, env) :: qs) where
  served hserve := List.forall_mem_cons.mpr ⟨hq.served hserve, h.served (hanswers ▸ hserve)⟩
  opened := List.forall_mem_cons.mpr ⟨fun _ _ heq hw => hq.opened heq hw,
    fun q' hq' name command heq hw => h.opened q' hq' name command heq (hopened hw)⟩
  stays := List.pairwise_cons.mpr ⟨fun q' hq' name _ command' heq heq' henv =>
    h.opened q' hq' name command' heq' (hq.stays heq henv), h.stays⟩

section
variable {configs : List Config} {contents : Contents} {w w' : World} {s : Spec.State}

/-- What is executed is a step of the abstract machine, whatever the types of its fields. -/
theorem execJson_step (hp : Relator.BiUnique (Place configs)) (R : Simulates configs contents w s)
    {payload out : Bytes} (h : execJson payload w = .ok (out, w')) :
    ∃ q env, Spec.queryOf payload = .ok q ∧ Observed w w' q env ∧
      Json.FastWriter.write (Spec.step (catalogOf configs) (q, env) s).1 = out ∧
      Simulates configs contents w' (Spec.step (catalogOf configs) (q, env) s).2 := by
  obtain ⟨⟨reply, w₁⟩, hreply, h⟩ := bind_eq_ok.mp h
  cases h
  rw [execReply_eq payload R.inv] at hreply
  obtain ⟨request, hrequest, hreply⟩ := bind_eq_ok.mp hreply
  unfold Spec.queryOf
  rw [hrequest, ok_bind]
  cases request with
  | rejected =>
    cases hreply
    exact ⟨.rejected, ⟨true, true⟩, rfl, ⟨fun _ => rfl, nofun, nofun⟩, rfl, R⟩
  | named name command =>
    have hstep : ∀ command', w.request name (.ok command') = .ok (reply, w') → ∃ env,
        Observed w w' (.named name command') env ∧
        Json.FastWriter.write (Spec.step (catalogOf configs) (.named name command', env) s).1 =
          Json.FastWriter.write reply ∧
        Simulates configs contents w' (Spec.step (catalogOf configs) (.named name command', env) s).2 := by
      intro command' h
      obtain ⟨heq, R'⟩ := request_step hp R h
      exact ⟨_, observed_env R.inv h, congrArg _ heq, R'⟩
    cases command with
    | ok command =>
      obtain ⟨env, hobserved, hout, R'⟩ := hstep command hreply
      exact ⟨_, env, rfl, hobserved, hout, R'⟩
    | error f =>
      obtain ⟨env, hobserved, hout, R'⟩ := hstep .unknown (World.request_of_error hreply _)
      exact ⟨_, env, rfl, hobserved, hout, R'⟩

/-- A sequence of requests is a run of the abstract machine. -/
theorem run_execJson (hp : Relator.BiUnique (Place configs)) (R : Simulates configs contents w s)
    {payloads outs : List Bytes} (h : run execJson payloads w = .ok (outs, w')) :
    ∃ qs : List (Spec.Query × Spec.Env),
      payloads.map Spec.queryOf = qs.map (fun q => .ok q.1) ∧ Steady w qs ∧
      (trace (Spec.step (catalogOf configs)) qs s).1.map Json.FastWriter.write = outs ∧
      Simulates configs contents w' (trace (Spec.step (catalogOf configs)) qs s).2 := by
  induction payloads generalizing w s outs with
  | nil =>
    cases h
    exact ⟨[], rfl, ⟨fun _ => List.forall_mem_nil _, List.forall_mem_nil _, .nil⟩, rfl, R⟩
  | cons payload payloads ih =>
    obtain ⟨out, w₁, outs', h₁, h₂, rfl⟩ := run_cons_eq_ok.mp h
    obtain ⟨q, env, hq, hobserved, hout, R₁⟩ := execJson_step hp R h₁
    obtain ⟨qs, hqs, hsteady, houts, R'⟩ := ih R₁ h₂
    obtain ⟨⟨reply, w₂⟩, hreply, h₁⟩ := bind_eq_ok.mp h₁
    cases h₁
    refine ⟨(q, env) :: qs, ?_, ?_, ?_, R'⟩
    · rw [List.map_cons, List.map_cons, hq, hqs]
    · exact hsteady.cons hobserved (R.inv.execReply hreply).2.answers
        (World.opened_of_execReply R.inv hreply)
    · rw [trace, List.map_cons, hout, houts]

end

namespace Net

variable {σ : Type} {P : Platform} {exec : Bytes → σ → Outcome (Bytes × σ)} {n n' n'' : Net σ}
  {events events' : List Event}

/-! ## Moments of a run -/

theorem Steps.snoc {e : Event} (h : Steps P exec n (events ++ [e]) n'') :
    ∃ n', Steps P exec n events n' ∧ n'.next P exec e = some n'' := by
  generalize hes : events ++ [e] = es at h
  cases h with
  | refl => exact absurd hes (List.append_ne_nil_of_right_ne_nil _ (List.cons_ne_nil _ _))
  | tail h hnext =>
    obtain ⟨rfl, he⟩ := List.append_inj' hes rfl
    cases he
    exact ⟨_, h, hnext⟩

theorem Steps.unique (h : Steps P exec n events n') (h' : Steps P exec n events n'') : n' = n'' := by
  induction h generalizing n'' with
  | refl =>
    generalize hes : ([] : List Event) = es at h'
    cases h' with
    | refl => rfl
    | tail => exact absurd hes.symm (List.append_ne_nil_of_right_ne_nil _ (List.cons_ne_nil _ _))
  | tail _ hnext ih =>
    obtain ⟨m, hm, hnext'⟩ := h'.snoc
    obtain rfl := ih hm
    exact Option.some.inj (hnext.symm.trans hnext')

/-- A run goes on from each of its moments. -/
theorem Steps.rest (h : Steps P exec n events n') (h' : Steps P exec n (events ++ events') n'') :
    Steps P exec n' events' n'' := by
  induction events' using List.reverseRecOn generalizing n'' with
  | nil =>
    rw [List.append_nil] at h'
    rw [h.unique h']
    exact .refl
  | append_singleton events' e ih =>
    rw [← List.append_assoc] at h'
    obtain ⟨m, hm, hnext⟩ := h'.snoc
    exact .tail (ih hm) hnext

/-- What has been executed stays, and in its place. -/
theorem Steps.order_grows (h : Steps P exec n events n') : n.order <+: n'.order := by
  induction h with
  | refl => exact List.prefix_refl _
  | tail _ hnext ih =>
    refine ih.trans ?_
    cases next_cases hnext with
    | complete => exact List.prefix_append _ _
    | _ => exact List.prefix_refl _

/-! ## Linearizability -/

/-- What a run that starts with `w₀` has to do with the maps that it serves. -/
structure Linearizable (P : Platform) (w₀ : World) (events : List Event) (n : Net World)
    (qs : List (Spec.Query × Spec.Env)) : Prop where
  queries : n.order.map (fun p => Spec.queryOf p.2.request) = qs.map (fun q => .ok q.1)
  /-- The replies are those of the maps, to the requests in this order. -/
  replies : n.order.map (·.2.reply) =
    (trace (Spec.step (catalogOf w₀.configs)) qs (storeOf w₀.configs w₀.rocks.contents)).1.map
      Json.FastWriter.write
  stores : Families.Represents (Place w₀.configs) JString.bytes
    (trace (Spec.step (catalogOf w₀.configs)) qs (storeOf w₀.configs w₀.rocks.contents)).2
    n.state.rocks.contents
  steady : Steady w₀ qs
  /-- At any moment the requests executed so far come first, the answered ones are among them, and none
  of them has bytes that are not sent. -/
  moments : ∀ events₁ events₂ n₁, events = events₁ ++ events₂ →
    Steps P execJson { state := w₀ } events₁ n₁ → n₁.order <+: n.order ∧
      ∀ i, answered i events₁ <+: (callsOf i n₁.order).map Call.frame ∧
        (callsOf i n₁.order).map Call.request <+: P.framing.decode (n₁.conn i).sent

theorem linearizable_of_simulates {P : Platform} {configs : List Config} {rocks : Rocks}
    (hp : Relator.BiUnique (Place configs))
    (R : Simulates configs rocks.contents ⟨configs, rocks⟩ (storeOf configs rocks.contents))
    {events : List Event} {n : Net World} (h : Steps P execJson { state := ⟨configs, rocks⟩ } events n) :
    ∃ qs, Linearizable P ⟨configs, rocks⟩ events n qs := by
  obtain ⟨qs, hqs, hsteady, houts, R'⟩ := run_execJson hp R h.ordered.sequential
  rw [List.map_map] at hqs
  refine ⟨qs, hqs, houts.symm, R'.stores, hsteady, ?_⟩
  rintro events₁ events₂ n₁ rfl h₁
  refine ⟨(h₁.rest h).order_grows, fun i => ⟨?_, ?_⟩⟩
  · obtain ⟨owed, hcalls, -⟩ := h₁.ordered.owes i
    rw [h₁.ordered.own, hcalls]
    exact List.prefix_append _ _
  · obtain ⟨rest, hdecodes⟩ := ((h₁.inv (.init _)).conn i).decodes
    rw [h₁.ordered.own]
    exact hdecodes.isPrefix

theorem simulates_start {file : Bytes} {configs : List Config} {rocks : Rocks}
    (hread : readConfigs rocks.api file = .ok (some configs)) (hlive : rocks.live = fun _ => none)
    (hstores : Families.Represents (Place configs) JString.bytes (storeOf configs rocks.contents)
      rocks.contents) :
    Simulates configs rocks.contents ⟨configs, rocks⟩ (storeOf configs rocks.contents) :=
  ⟨.start (readConfigs_start hread) hlive, rfl, hstores, fun _ _ => rfl⟩

theorem linearizable_of_steps {P : Platform} {file : Bytes} {configs : List Config} {rocks : Rocks}
    (hread : readConfigs rocks.api file = .ok (some configs))
    (hpaths : (configs.map Config.path).Nodup) (hlive : rocks.live = fun _ => none)
    (hfits : ∀ path family key v, rocks.contents path family key = some v →
      v.length ≤ Json.maxStringLength) {events : List Event} {n : Net World}
    (h : Steps P execJson { state := ⟨configs, rocks⟩ } events n) :
    ∃ qs, Linearizable P ⟨configs, rocks⟩ events n qs :=
  linearizable_of_simulates (place_biUnique hpaths) (simulates_start hread hlive (storeOf_represents hfits)) h

/-! ## A run with two clients -/

/-- A client gets a value while another one puts it; its request arrives in two parts. -/
def putAndGetEvents : List Event := [
  .connect 0,
  .connect 1,
  .accept 1,
  .deliver 1 (Endian.little.encode32 getPayload.length),
  .complete 1 .header (some 4),
  .accept 0,
  .deliver 0 (Endian.little.encode32 putPayload.length ++ putPayload),
  .complete 0 .header (some 4),
  .deliver 1 getPayload,
  .complete 1 (.readSome ⟨0, 0⟩ 35 .doRead) (some 20),
  .complete 0 (.readSome ⟨0, 0⟩ 47 .doRead) (some 47),
  .complete 1 (.readSome ⟨0, 20⟩ 15 (.readRest ⟨0, 20⟩ 15)) (some 15)]

theorem linearizable_putAndGet : ∃ n qs,
    n.order.map (fun p => (p.1, p.2.reply)) = [(0, ascii "\x7b\"error\":0\x7d\n"),
      (1, ascii "\x7b\"error\":0,\"value\":\"v\"\x7d\n")] ∧
      Linearizable ⟨.little, 0⟩ ⟨[plainConfig], emptyRocks⟩ putAndGetEvents n qs := by
  have hrun : ((putAndGetEvents.foldlM (next ⟨.little, 0⟩ execJson)
      { state := ⟨[plainConfig], emptyRocks⟩ }).map fun n => n.order.map fun p => (p.1, p.2.reply)) =
        some [(0, ascii "\x7b\"error\":0\x7d\n"),
          (1, ascii "\x7b\"error\":0,\"value\":\"v\"\x7d\n")] := by decide +kernel
  obtain ⟨n, hn, horder⟩ := Option.map_eq_some_iff.mp hrun
  obtain ⟨qs, hqs⟩ := @linearizable_of_steps ⟨.little, 0⟩ _ _ emptyRocks readConfigs_plainFile (by decide)
    rfl nofun _ _ (steps_of_foldlM hn)
  exact ⟨n, qs, horder, hqs⟩

end Net

end RocksdbService
