import RocksdbService.Theory.Run
import RocksdbService.Verify.Steps

/-! # Interleaved sessions

However the steps of the clients, of the transport and of the handlers follow one another, the calls of
`exec_json` are one sequential run, in which the calls made for a client are made for the first frames
that it has sent, in their order, and what is written to it are the frames of the replies to them
(`linearized_of_steps`). -/

namespace RocksdbService

open Outcome

namespace Conn

variable {σ : Type} {P : Platform} {exec : Bytes → σ → Outcome (Bytes × σ)} {c c' : Conn}

/-- The frames that are being written. -/
def writes (ops : List Pending) : List Bytes :=
  ops.filterMap fun
    | .write frame => some frame
    | _ => none

/-- The frame whose write has succeeded. -/
def written : Pending → Option Nat → List Bytes
  | .write frame, some _ => [frame]
  | _, _ => []

/-- All frames but one have been written, and that one is being written unless the session has ended. -/
def Owes (done : List Bytes) (c : Conn) : Prop :=
  ∃ owed, c.calls.map Call.frame = done ++ owed ∧ owed.length ≤ 1 ∧
    ∀ s, c.session = some s → s.pending ≠ [] → owed = writes s.pending

theorem Owes.connect : Owes [] {} := ⟨[], rfl, Nat.zero_le _, nofun⟩

theorem Owes.start {done : List Bytes} (ho : c.Owes done) (h : c.Inv P) (hsession : c.session = none) :
    c.start.Owes done := by
  obtain ⟨owed, hcalls, -, -⟩ := ho
  cases h with
  | waiting _ _ hnil =>
    rw [hnil] at hcalls
    obtain ⟨rfl, rfl⟩ := List.append_eq_nil_iff.mp hcalls.symm
    refine ⟨[], congrArg _ hnil, Nat.zero_le _, fun s hs _ => ?_⟩
    cases hs
    rfl
  | alive hs => rw [hsession] at hs; cases hs
  | ended hs => rw [hsession] at hs; cases hs

/-- A handler that makes no call and leaves the session to read on, or to end. -/
theorem Owes.of_calls_eq {done owed : List Bytes} {s : Session}
    (hcalls : c.calls.map Call.frame = done ++ owed) (hlen : owed.length ≤ 1)
    (hsession : c.session = some s)
    (hpending : s.pending = [] ∨ owed = writes s.pending) : c.Owes done := by
  refine ⟨owed, hcalls, hlen, fun s' hs' hne => ?_⟩
  cases hsession.symm.trans hs'
  exact hpending.resolve_left hne

theorem Owes.complete {done : List Bytes} (ho : c.Owes done) (h : c.Inv P) {st st' : σ} {op : Pending}
    {result : Option Nat} {call : Option Call}
    (hr : c.complete P exec st op result = some (.ok (c', st', call))) :
    c'.Owes (done ++ written op result) := by
  obtain ⟨owed, hcalls, hlen, howed⟩ := ho
  obtain ⟨s, _, hsession, hphase, -⟩ := h.of_complete hr
  have hop := complete_pending hsession hphase hr
  have howed := howed s hsession hphase.pending_ne_nil
  rw [hop] at howed
  have hquiet : ∀ {s' : Session}, written op result = [] → c'.calls = c.calls →
      c'.session = some s' → s'.pending = [] ∨ owed = writes s'.pending →
      c'.Owes (done ++ written op result) := by
    intro s' hw hc hs hp
    rw [hw, List.append_nil]
    exact .of_calls_eq (by rw [hc]; exact hcalls) hlen hs hp
  generalize hrr : (Except.ok (c', st', call) : Outcome _) = r at hr
  cases complete_cases hsession hphase hr with
  | header htaken hlen' hp =>
    cases hrr
    obtain ⟨buffer, size, handler, hpending⟩ := hp.pending_of_taken (take_size32_ne_nil hlen')
    exact hquiet rfl rfl rfl (.inr (by rw [howed, hpending]; rfl))
  | refused htaken hlen' hsize hp =>
    cases hrr
    exact hquiet rfl rfl rfl (.inl hp)
  | headerFailed htaken hp =>
    cases hrr
    exact hquiet rfl rfl rfl (.inl hp)
  | chunk hpos hn htaken hp =>
    cases hrr
    obtain ⟨buffer, size, handler, hpending⟩ :=
      hp.pending_of_taken (List.append_ne_nil_of_left_ne_nil htaken _)
    exact hquiet rfl rfl rfl (.inr (by rw [howed, hpending]; rfl))
  | executed hn hmax hframe hp hwrite =>
    obtain ⟨⟨out, st₁⟩, hexec, hrr⟩ := bind_eq_ok.mp hrr.symm
    dsimp only at hrr
    split at hrr
    · cases hrr
      have hnil : owed = [] := howed
      refine ⟨[Session.frameOf P.endian out], ?_, Nat.le_refl 1, fun s' hs' _ => ?_⟩
      · rw [List.map_append, hcalls, hnil]
        simp [written]
      · cases hs'
        rw [hwrite]
        rfl
    · cases hrr
  | payloadFailed hp =>
    cases hrr
    exact hquiet rfl rfl rfl (.inl hp)
  | @written _ frame _ htaken hp =>
    cases hrr
    have hframe : owed = [frame] := howed
    refine @Owes.of_calls_eq _ _ [] _ ?_ (Nat.zero_le 1) rfl (.inr (by rw [hp]; rfl))
    rw [List.append_nil, hcalls, hframe]
    rfl
  | writeFailed hp =>
    cases hrr
    exact hquiet rfl rfl rfl (.inl hp)

/-- A handler that faults has not written. -/
theorem written_of_fault (h : c.Inv P) {st : σ} {op : Pending} {result : Option Nat} {f : Fault}
    (hr : c.complete P exec st op result = some (.error f)) : written op result = [] := by
  obtain ⟨_, _, hsession, hphase, -⟩ := h.of_complete hr
  generalize hrr : (Except.error f : Outcome (Conn × σ × Option Call)) = r at hr
  cases complete_cases hsession hphase hr with
  | executed => rfl
  | _ => cases hrr

end Conn

namespace Net

variable {σ : Type} {P : Platform} {exec : Bytes → σ → Outcome (Bytes × σ)} {n n' : Net σ}

/-- The connection of client `i`; a client that has not connected has sent nothing. -/
def conn (n : Net σ) (i : Nat) : Conn := (n.conns i).getD {}

theorem conn_eq {i : Nat} {c : Conn} (hc : n.conns i = some c) : n.conn i = c := by
  rw [conn, hc, Option.getD_some]

theorem Inv.conn (hi : n.Inv P) (i : Nat) : (n.conn i).Inv P := by
  unfold Net.conn
  cases hc : n.conns i with
  | none => exact .connect
  | some c => exact hi.conns i c hc

theorem setConn_conn (n : Net σ) (i j : Nat) (c : Conn) :
    (n.setConn i c).conn j = if j = i then c else n.conn j := by
  unfold conn setConn
  dsimp only
  split <;> rfl

/-- The calls that were made for client `i`. -/
def callsOf (i : Nat) (order : List (Nat × Call)) : List Call :=
  (order.filter (·.1 = i)).map Prod.snd

/-- The frames that have been written to client `i`. -/
def answered (i : Nat) (events : List Event) : List Bytes :=
  events.flatMap fun
    | .complete j op result => if j = i then Conn.written op result else []
    | _ => []

theorem answered_snoc (i : Nat) (events : List Event) (e : Event) :
    answered i (events ++ [e]) = answered i events ++ answered i [e] := List.flatMap_append

theorem mem_callsOf {i : Nat} {k : Call} {order : List (Nat × Call)} (h : (i, k) ∈ order) :
    k ∈ callsOf i order :=
  List.mem_map.mpr ⟨(i, k), List.mem_filter.mpr ⟨h, decide_eq_true rfl⟩, rfl⟩

theorem callsOf_append (i j : Nat) (order : List (Nat × Call)) (call : Option Call) :
    callsOf j (order ++ call.toList.map (i, ·)) =
      callsOf j order ++ if j = i then call.toList else [] := by
  unfold callsOf
  rw [List.filter_append, List.map_append]
  refine congrArg _ ?_
  cases call with
  | none => split <;> rfl
  | some k =>
    by_cases h : j = i
    · simp [h]
    · simp [h, Ne.symm h]

variable (P exec) in
/-- What the calls of a run have to do with the connections. -/
structure Ordered (st₀ : σ) (events : List Event) (n : Net σ) : Prop where
  /-- The replies and the stores are those of one sequential run of `exec_json`. -/
  sequential : run exec (n.order.map (·.2.request)) st₀ = .ok (n.order.map (·.2.reply), n.state)
  frames : ∀ p ∈ n.order, p.2.frame = Session.frameOf P.endian p.2.reply
  own : ∀ i, callsOf i n.order = (n.conn i).calls
  owes : ∀ i, (n.conn i).Owes (answered i events)

theorem Ordered.init (st₀ : σ) : Ordered P exec st₀ [] { state := st₀ } where
  sequential := rfl
  frames := nofun
  own _ := rfl
  owes _ := .connect

variable {st₀ : σ} {events : List Event}

/-- An event that makes no call and completes no operation. -/
theorem Ordered.frame {e : Event} (ho : Ordered P exec st₀ events n) (hstate : n'.state = n.state)
    (horder : n'.order = n.order) (he : ∀ i, answered i [e] = [])
    (hcalls : ∀ i, (n'.conn i).calls = (n.conn i).calls)
    (howes : ∀ i, (n.conn i).Owes (answered i events) → (n'.conn i).Owes (answered i events)) :
    Ordered P exec st₀ (events ++ [e]) n' where
  sequential := by rw [horder, hstate]; exact ho.sequential
  frames := by rw [horder]; exact ho.frames
  own i := by rw [horder, hcalls]; exact ho.own i
  owes i := by
    rw [answered_snoc, he, List.append_nil]
    exact howes i (ho.owes i)

/-- The same for an event that changes one connection. -/
theorem Ordered.frame_setConn {e : Event} (ho : Ordered P exec st₀ events n) {i : Nat} {c : Conn}
    (hstate : n'.state = n.state) (horder : n'.order = n.order)
    (hconns : n'.conns = (n.setConn i c).conns) (he : ∀ i, answered i [e] = [])
    (hcalls : c.calls = (n.conn i).calls)
    (howes : (n.conn i).Owes (answered i events) → c.Owes (answered i events)) :
    Ordered P exec st₀ (events ++ [e]) n' := by
  have hconn : ∀ j, n'.conn j = if j = i then c else n.conn j := by
    intro j
    rw [← setConn_conn]
    unfold conn
    rw [hconns]
  refine ho.frame hstate horder he (fun j => ?_) (fun j h => ?_)
  · rw [hconn]
    split
    · next hj => rw [hj, hcalls]
    · rfl
  · rw [hconn]
    split
    · next hj => subst hj; exact howes h
    · exact h

theorem Ordered.next {e : Event} (ho : Ordered P exec st₀ events n) (hi : n.Inv P)
    (h : n.next P exec e = some n') : Ordered P exec st₀ (events ++ [e]) n' := by
  cases next_cases h with
  | @connect i hnew =>
    have hconn : n.conn i = {} := by rw [conn, hnew]; rfl
    exact ho.frame_setConn rfl rfl rfl (fun _ => rfl) (by rw [hconn]) (by rw [hconn]; exact id)
  | deliver hc hopen =>
    exact ho.frame_setConn rfl rfl rfl (fun _ => rfl) (by rw [conn_eq hc]) (by rw [conn_eq hc]; exact id)
  | close hc =>
    exact ho.frame_setConn rfl rfl rfl (fun _ => rfl) (by rw [conn_eq hc]) (by rw [conn_eq hc]; exact id)
  | signal => exact ho.frame rfl rfl (fun _ => rfl) (fun _ => rfl) (fun _ => id)
  | shutdown => exact ho.frame rfl rfl (fun _ => rfl) (fun _ => rfl) (fun _ => id)
  | accept hc hidle haccepting hsession =>
    refine ho.frame_setConn rfl rfl rfl (fun _ => rfl) (by rw [conn_eq hc]; rfl) fun howes => ?_
    rw [conn_eq hc] at howes
    exact howes.start (hi.conns _ _ hc) hsession
  | fault hc hr =>
    refine ho.frame rfl rfl (fun j => ?_) (fun _ => rfl) (fun _ => id)
    simp [answered, Conn.written_of_fault (hi.conns _ _ hc) hr]
  | @complete i c c' op result st' call inside hc hthread hr =>
    obtain ⟨-, E⟩ := (hi.conns i c hc).complete hr
    have hconn : ∀ j, conn { (n.setConn i c').settle i c' inside with
        state := st', order := n.order ++ call.toList.map (i, ·) } j =
        if j = i then c' else n.conn j := by
      intro j
      rw [← setConn_conn]
      unfold conn
      rw [settle_conns]
    refine ⟨?_, fun p hp => ?_, fun j => ?_, fun j => ?_⟩
    · dsimp only
      rw [List.map_append, List.map_append, run_append, ho.sequential, ok_bind]
      cases call with
      | none =>
        rw [E.quiet rfl]
        simp
      | some k =>
        obtain ⟨hexec, -, -⟩ := E.executed k rfl
        simp [run, hexec]
    · rcases List.mem_append.mp hp with hp | hp
      · exact ho.frames p hp
      · obtain ⟨k, hk, rfl⟩ := List.mem_map.mp hp
        exact (E.executed k (Option.mem_toList.mp hk)).2.1
    · rw [hconn, callsOf_append, ho.own]
      split
      · next hj => rw [hj, conn_eq hc, E.calls]
      · rw [List.append_nil]
    · rw [hconn, answered_snoc]
      have howes := ho.owes j
      split
      · next hj =>
        subst hj
        rw [conn_eq hc] at howes
        simpa [answered] using howes.complete (hi.conns j c hc) hr
      · next hj => simpa [answered, Ne.symm hj] using howes

theorem Steps.ordered (h : Steps P exec { state := st₀ } events n) : Ordered P exec st₀ events n := by
  induction h with
  | refl => exact .init st₀
  | tail h hnext ih => exact ih.next (h.inv (.init st₀)) hnext

/-- Nothing more is sent on a closed connection. -/
theorem Steps.closed (h : Steps P exec n events n') (hi : n.Inv P) {i : Nat} {c : Conn}
    (hc : n.conns i = some c) (hclosed : c.closed = true) :
    ∃ c', n'.conns i = some c' ∧ c'.closed = true ∧ c'.sent = c.sent := by
  have hset : ∀ {m : Net σ} {j : Nat} {d d' : Conn}, m.conns j = some d → d'.closed = d.closed →
      d'.sent = d.sent → ∀ {c' : Conn}, m.conns i = some c' → c'.closed = true → c'.sent = c.sent →
      ∃ c'', (m.setConn j d').conns i = some c'' ∧ c''.closed = true ∧ c''.sent = c.sent := by
    intro m j d d' hd hcl hse c' hc' hcl' hse'
    by_cases hj : i = j
    · subst hj
      cases hd.symm.trans hc'
      exact ⟨d', setConn_self m i d', hcl.trans hcl', hse.trans hse'⟩
    · exact ⟨c', (setConn_ne m d' hj).trans hc', hcl', hse'⟩
  induction h with
  | refl => exact ⟨c, hc, hclosed, rfl⟩
  | tail hsteps hnext ih =>
    obtain ⟨c', hc', hcl', hse'⟩ := ih
    cases next_cases hnext with
    | @connect j hnew =>
      have hj : i ≠ j := by
        rintro rfl
        cases hnew.symm.trans hc'
      exact ⟨c', (setConn_ne _ {} hj).trans hc', hcl', hse'⟩
    | @deliver j bs d hd hopen =>
      have hj : i ≠ j := by
        rintro rfl
        cases hd.symm.trans hc'
        cases hopen.symm.trans hcl'
      exact ⟨c', (setConn_ne _ _ hj).trans hc', hcl', hse'⟩
    | @close j d hd =>
      by_cases hj : i = j
      · subst hj
        cases hd.symm.trans hc'
        exact ⟨_, setConn_self _ i _, rfl, hse'⟩
      · exact ⟨c', (setConn_ne _ _ hj).trans hc', hcl', hse'⟩
    | signal => exact ⟨c', hc', hcl', hse'⟩
    | shutdown => exact ⟨c', hc', hcl', hse'⟩
    | fault => exact ⟨c', hc', hcl', hse'⟩
    | accept hd => exact hset hd rfl rfl hc' hcl' hse'
    | complete hd _ hr =>
      obtain ⟨-, E⟩ := ((hsteps.inv hi).conns _ _ hd).complete hr
      obtain ⟨c'', hc'', hrest⟩ := hset hd E.closed E.sent hc' hcl' hse'
      exact ⟨c'', by rw [settle_conns]; exact hc'', hrest⟩

variable (P exec) in
/-- What a run of the server has to do with a sequential run of `exec_json`. -/
structure Linearized (st₀ : σ) (events : List Event) (n : Net σ) : Prop
    extends Ordered P exec st₀ events n where
  /-- Each client's calls are for the first frames that it has sent, in their order. -/
  requests : ∀ i c, n.conns i = some c → c.requests <+: P.framing.decode c.sent
  outstanding : ∀ i c s, n.conns i = some c → c.session = some s → s.pending.length ≤ 1
  /-- A client that has closed is served no frame that it had not completed. -/
  closed : ∀ i c, n.conns i = some c → c.closed = true → ∀ events' n', Steps P exec n events' n' →
    ∃ c', n'.conns i = some c' ∧ c'.requests <+: P.framing.decode c.sent
  /-- A handler faults only as `exec_json` does on the next frame of a client, or for lack of room for
  its reply. -/
  fault : ∀ e n', n.next P exec e = some n' → n'.crashed = true → n.crashed = true ∨
    ∃ i c payload, n.conns i = some c ∧ c.requests ++ [payload] <+: P.framing.decode c.sent ∧
      ¬ Conn.Served P exec n.state payload

theorem linearized_of_steps (h : Steps P exec { state := st₀ } events n) :
    Linearized P exec st₀ events n where
  toOrdered := h.ordered
  requests i c hc := by
    obtain ⟨rest, hdecodes⟩ := ((h.inv (.init st₀)).conns i c hc).decodes
    exact hdecodes.isPrefix
  outstanding i c s hc hs := by
    cases (h.inv (.init st₀)).conns i c hc with
    | waiting hsession => cases hs.symm.trans hsession
    | alive hsession hphase =>
      cases hs.symm.trans hsession
      obtain ⟨op, hp⟩ := hphase.pending_eq
      rw [hp]
      exact Nat.le_refl 1
    | ended hsession hpending =>
      cases hs.symm.trans hsession
      rw [hpending]
      exact Nat.zero_le 1
  closed i c hc hclosed events' n' h' := by
    have hi := h.inv (.init st₀)
    obtain ⟨c', hc', -, hsent⟩ := h'.closed hi hc hclosed
    obtain ⟨rest, hdecodes⟩ := ((h'.inv hi).conns i c' hc').decodes
    exact ⟨c', hc', hsent ▸ hdecodes.isPrefix⟩
  fault e n' hnext hcrashed := by
    cases next_cases hnext with
    | fault hc hr =>
      obtain ⟨payload, hpayload⟩ := Conn.complete_fault ((h.inv (.init st₀)).conns _ _ hc) hr
      exact .inr ⟨_, _, payload, hc, hpayload⟩
    | complete =>
      dsimp only at hcrashed
      rw [settle_crashed] at hcrashed
      exact .inl hcrashed
    | _ => exact .inl hcrashed

/-- Two clients, the second of which is served first, by a service that answers with the request and
counts. -/
theorem linearized_two_clients : ∃ events n, n.order.map Prod.fst = [1, 0] ∧ n.state = 2 ∧
    Linearized ⟨.little, 0⟩ (fun request (count : Nat) => .ok (request, count + 1)) 0 events n :=
  ⟨_, _, rfl, rfl, linearized_of_steps <|
    .tail (.tail (.tail (.tail (.tail (.tail (.tail (.tail (.tail (.tail .refl
      (e := .connect 0) rfl)
      (e := .accept 0) rfl)
      (e := .connect 1) rfl)
      (e := .deliver 0 (1 :: 0 :: 0 :: 0 :: ascii "A")) rfl)
      (e := .complete 0 .header (some 4)) rfl)
      (e := .accept 1) rfl)
      (e := .deliver 1 (1 :: 0 :: 0 :: 0 :: ascii "B")) rfl)
      (e := .complete 1 .header (some 4)) rfl)
      (e := .complete 1 (.readSome ⟨0, 0⟩ 1 .doRead) (some 1)) rfl)
      (e := .complete 0 (.readSome ⟨0, 0⟩ 1 .doRead) (some 1)) rfl⟩

end Net

end RocksdbService
