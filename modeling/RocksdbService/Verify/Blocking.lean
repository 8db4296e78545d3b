import RocksdbService.Verify.Instance
import RocksdbService.Verify.Steps

/-! # The blocking header read

`do_read` reads a header with `asio::read`, which keeps the only thread until that client has sent four
bytes or closed, or a signal comes in the meantime. A client that is slow there stops the server for all
others and for the handler of a signal that has come before (`captured_by_header`). The server goes on in
every run in which the thread comes to a header read only when the header has come (`serves_of_prompt`). -/

namespace RocksdbService

open Outcome

namespace Conn

variable {σ : Type} {P : Platform} {exec : Bytes → σ → Outcome (Bytes × σ)} {c c' : Conn}

/-- The client has sent a complete frame that is not executed, and the server has not dismissed it. -/
def Awaits (P : Platform) (c : Conn) : Prop :=
  c.requests ≠ P.framing.decode c.sent ∧ ∀ s, c.session = some s → s.pending ≠ []

/-- A header read would not block. -/
def HeaderReady (c : Conn) : Prop := size32 ≤ c.inbox.length ∨ c.closed = true

/-- A session comes to a header read when its reply has been written. -/
theorem Inv.write_of_inHeader (h : c.Inv P) {st st' : σ} {op : Pending} {result : Option Nat}
    {call : Option Call} (hr : c.complete P exec st op result = some (.ok (c', st', call)))
    (hin : c'.inHeader = true) :
    (∃ frame n, op = .write frame ∧ result = some n) ∧ c'.inbox = c.inbox := by
  have hnil : ∀ {s : Session}, c'.session = some s → s.pending = [] → False := by
    intro s hs hp
    rw [inHeader_eq hs, hp] at hin
    cases hin
  have hread : ∀ {s : Session} {taken : Bytes}, c'.session = some s → s.Phase P taken → taken ≠ [] →
      False := by
    intro s taken hs hp hne
    obtain ⟨buffer, size, handler, hpending⟩ := hp.pending_of_taken hne
    rw [inHeader_eq hs, hpending, List.mem_singleton] at hin
    cases hin
  obtain ⟨_, _, hsession, hphase, -⟩ := h.of_complete hr
  generalize hrr : (Except.ok (c', st', call) : Outcome _) = r at hr
  cases complete_cases hsession hphase hr with
  | header htaken hlen hp => cases hrr; exact (hread rfl hp (take_size32_ne_nil hlen)).elim
  | refused htaken hlen hsize hp => cases hrr; exact (hnil rfl hp).elim
  | headerFailed htaken hp => cases hrr; exact (hnil rfl hp).elim
  | chunk hpos hn htaken hp =>
    cases hrr
    exact (hread rfl hp (List.append_ne_nil_of_left_ne_nil htaken _)).elim
  | executed hn hmax hframe hp hwrite =>
    obtain ⟨⟨out, st₁⟩, hexec, hrr⟩ := bind_eq_ok.mp hrr.symm
    dsimp only at hrr
    split at hrr
    · cases hrr
      rw [inHeader_eq rfl, hwrite, List.mem_singleton] at hin
      cases hin
    · cases hrr
  | payloadFailed hp => cases hrr; exact (hnil rfl hp).elim
  | written htaken hp => cases hrr; exact ⟨⟨_, _, rfl, rfl⟩, rfl⟩
  | writeFailed hp => cases hrr; exact (hnil rfl hp).elim

variable (exec) in
/-- A header read that would not block completes. -/
theorem HeaderReady.complete (hready : c.HeaderReady) (hin : c.inHeader = true) (st : σ) :
    ∃ result c' st' call, c.complete P exec st .header result = some (.ok (c', st', call)) ∧
      (result.isSome || c.closed) = true := by
  cases hs : c.session with
  | none => rw [inHeader, hs] at hin; cases hin
  | some s =>
    have hop := (inHeader_eq hs).mp hin
    rcases hready with hlen | hclosed
    · exact ⟨some size32, { c with
        session := some (Session.headerRead P { s with pending := s.pending.erase .header }
          (some (c.inbox.take size32)))
        inbox := c.inbox.drop size32 }, st, none, by simp [Conn.complete, hs, hop, hlen], rfl⟩
    · exact ⟨none, { c with
        session := some (Session.headerRead P { s with pending := s.pending.erase .header } none) },
        st, none, by simp [Conn.complete, hs, hop], hclosed⟩

variable (exec) in
/-- Something completes for a client that has been accepted and awaits an answer. -/
theorem Awaits.complete (ha : c.Awaits P) (h : c.Inv P) {s : Session} (hs : c.session = some s)
    (st : σ) : ∃ op n r, c.complete P exec st op (some n) = some r := by
  by_contra hnone
  have hrest : c.AtRest P exec st := by
    intro op n
    cases hr : c.complete P exec st op (some n) with
    | none => rfl
    | some r => exact absurd ⟨op, n, r, hr⟩ hnone
  cases h with
  | waiting hsession => cases hs.symm.trans hsession
  | alive hsession hphase hsent =>
    exact ha.1 (hsent.decode_eq_of_none (hrest.next?_eq_none hsession hphase)).symm
  | ended hsession hpending => exact ha.2 _ hsession hpending

end Conn

/-- The steps of the server itself. -/
def Event.isServer : Event → Bool
  | .accept _ | .complete _ _ _ | .shutdown => true
  | .connect _ | .deliver _ _ | .close _ | .signal => false

/-- The client whose header the thread goes on to read. -/
def Event.readsHeader : Event → Option Nat
  | .accept i | .complete i (.write _) (some _) => some i
  | _ => none

namespace Net

variable {σ : Type} {P : Platform} {exec : Bytes → σ → Outcome (Bytes × σ)} {n n' : Net σ}

variable (P exec) in
/-- A client has sent a complete frame, and the server can do nothing unless a client does something or a
signal comes. -/
def Stuck (n : Net σ) : Prop :=
  n.stopped = false ∧ (∃ i c, n.conns i = some c ∧ c.closed = false ∧ c.Awaits P) ∧
    ∀ e, e.isServer = true → n.next P exec e = none

variable (P exec) in
/-- A signal has arrived, and its handler cannot run unless a client does something or another signal
comes. -/
def SignalStuck (n : Net σ) : Prop :=
  n.signalled = true ∧ ∀ events n', Steps P exec n events n' → (∀ e ∈ events, e.isServer = true) →
    n'.stopped = false

variable (P exec) in
/-- The thread does not come to a header read before the header, and `exec_json` answers. -/
structure Prompt (n : Net σ) (e : Event) : Prop where
  header : ∀ i, e.readsHeader = some i → ∃ c, n.conns i = some c ∧ c.HeaderReady
  served : ∀ i c payload, n.conns i = some c → c.requests ++ [payload] <+: P.framing.decode c.sent →
    Conn.Served P exec n.state payload

variable (P exec) in
/-- A run whose steps are all prompt. -/
inductive PromptSteps (n : Net σ) : List Event → Net σ → Prop
  | refl : PromptSteps n [] n
  | tail {events : List Event} {e : Event} {n' n'' : Net σ} (h : PromptSteps n events n')
    (hprompt : Prompt P exec n' e) (hnext : n'.next P exec e = some n'') :
    PromptSteps n (events ++ [e]) n''

theorem PromptSteps.steps {events : List Event} (h : PromptSteps P exec n events n') :
    Steps P exec n events n' := by
  induction h with
  | refl => exact .refl
  | tail _ _ hnext ih => exact ih.tail hnext

/-- A header read that the thread is inside would not block. -/
def ThreadReady (n : Net σ) : Prop :=
  ∀ i inside, n.thread = some (i, inside) → ∃ c, n.conns i = some c ∧ c.HeaderReady

/-- A change of one connection that keeps what it can read. -/
theorem ThreadReady.setConn (ht : n.ThreadReady) {i : Nat} {c d : Conn} (hc : n.conns i = some c)
    (hd : c.HeaderReady → d.HeaderReady) : (n.setConn i d).ThreadReady := by
  intro j inside hj
  obtain ⟨c', hc', hready⟩ := ht j inside hj
  by_cases hij : j = i
  · subst hij
    cases hc.symm.trans hc'
    exact ⟨d, setConn_self n j d, hd hready⟩
  · exact ⟨c', (setConn_ne n d hij).trans hc', hready⟩

theorem Prompt.next {e : Event} (hp : Prompt P exec n e) (hi : n.Inv P) (ht : n.ThreadReady)
    (hcrashed : n.crashed = false) (h : n.next P exec e = some n') :
    n'.ThreadReady ∧ n'.crashed = false := by
  cases next_cases h with
  | @connect i hnew =>
    refine ⟨fun j inside hj => ?_, hcrashed⟩
    obtain ⟨c, hc, hready⟩ := ht j inside hj
    have hij : j ≠ i := by
      rintro rfl
      cases hnew.symm.trans hc
    exact ⟨c, (setConn_ne n {} hij).trans hc, hready⟩
  | deliver hc hopen =>
    refine ⟨ht.setConn hc (Or.imp_left fun hlen => ?_), hcrashed⟩
    rw [List.length_append]
    exact Nat.le_add_right_of_le hlen
  | close hc => exact ⟨ht.setConn hc fun _ => .inr rfl, hcrashed⟩
  | signal => exact ⟨ht, hcrashed⟩
  | shutdown => exact ⟨ht, hcrashed⟩
  | @accept i c hc hidle haccepting hsession =>
    refine ⟨fun j inside hj => ?_, hcrashed⟩
    cases hj
    obtain ⟨d, hd, hready⟩ := hp.header i rfl
    cases hc.symm.trans hd
    exact ⟨c.start, setConn_self n i _, hready⟩
  | fault hc hr =>
    obtain ⟨payload, hpayload, hserved⟩ := Conn.complete_fault (hi.conns _ _ hc) hr
    exact absurd (hp.served _ _ payload hc hpayload) hserved
  | @complete i c c' op result st' call inside hc hthread hr =>
    refine ⟨fun j inside' hj => ?_, by dsimp only; rw [settle_crashed]; exact hcrashed⟩
    obtain ⟨-, E⟩ := (hi.conns i c hc).complete hr
    unfold settle at hj ⊢
    by_cases hin : c'.inHeader = true
    · obtain ⟨⟨frame, m, rfl, rfl⟩, hinbox⟩ := (hi.conns i c hc).write_of_inHeader hr hin
      obtain ⟨d, hd, hready⟩ := hp.header i rfl
      cases hc.symm.trans hd
      rw [if_pos hin] at hj ⊢
      cases hj
      refine ⟨c', setConn_self n i c', ?_⟩
      rwa [Conn.HeaderReady, hinbox, E.closed]
    · rw [if_neg hin] at hj
      cases hj

theorem PromptSteps.ready {st₀ : σ} {events : List Event}
    (h : PromptSteps P exec { state := st₀ } events n) : n.ThreadReady ∧ n.crashed = false := by
  induction h with
  | refl => exact ⟨nofun, rfl⟩
  | tail h hprompt hnext ih => exact hprompt.next (h.steps.inv (.init st₀)) ih.1 ih.2 hnext

variable (exec) in
/-- The header read that the thread is inside completes, and leaves the thread idle. -/
theorem ThreadReady.completes (ht : n.ThreadReady) (hi : n.Inv P) (hcrashed : n.crashed = false)
    (hstopped : n.stopped = false) {i : Nat} {inside : Inside} (hthread : n.thread = some (i, inside)) :
    ∃ result n', n.next P exec (.complete i .header result) = some n' ∧ n'.thread = none ∧
      n'.crashed = false ∧ n'.stopped = false ∧ n'.signalled = n.signalled := by
  obtain ⟨c, hc, hready⟩ := ht i inside hthread
  have hin := (hi.thread_iff hc).mpr ⟨inside, hthread⟩
  obtain ⟨result, c', st', call, hr, hends⟩ := hready.complete (P := P) exec hin n.state
  have hin' := (hi.conns i c hc).complete_header hr
  refine ⟨result, n.completed i inside (.ok (c', st', call)), ?_, ?_⟩
  · have hends' : (result.isSome || c.closed || n.interrupted) = true := by rw [hends, Bool.true_or]
    simp only [next, hc, hr, hthread, hcrashed, hstopped, hends', Option.bind_eq_bind, Option.bind_some,
      Bool.or_self, Bool.false_eq_true, if_false, and_self, if_true]
  · simp only [completed, settle, hin', Bool.false_eq_true, if_false]
    exact ⟨trivial, hcrashed, hstopped, rfl⟩

theorem not_stuck (hi : n.Inv P) (ht : n.ThreadReady) (hcrashed : n.crashed = false) :
    ¬ Stuck P exec n := by
  rintro ⟨hstopped, ⟨i, c, hc, -, hawaits⟩, hnone⟩
  cases hthread : n.thread with
  | some p =>
    obtain ⟨j, inside⟩ := p
    obtain ⟨result, n', hnext, -⟩ := ht.completes exec hi hcrashed hstopped hthread
    cases (hnone _ rfl).symm.trans hnext
  | none =>
    have haccepting : n.accepting = true := by
      rw [← Bool.not_eq_false]
      intro hacc
      obtain ⟨j, hj⟩ := hi.accepting hacc
      cases hthread.symm.trans hj
    cases hs : c.session with
    | none =>
      have := hnone (.accept i) rfl
      simp [next, hc, hthread, hcrashed, hstopped, haccepting, hs] at this
    | some s =>
      obtain ⟨op, m, r, hr⟩ := hawaits.complete exec (hi.conns i c hc) hs n.state
      have hop : op ≠ .header := by
        rintro rfl
        have hin : c.inHeader = true := by
          rw [Conn.inHeader_eq hs]
          by_contra hnot
          simp [Conn.complete, hs, hnot] at hr
        obtain ⟨inside, hin⟩ := hi.header i c hc hin
        cases hthread.symm.trans hin
      have := hnone (.complete i op (some m)) rfl
      simp [next, hc, hr, hthread, hcrashed, hstopped, hop] at this

theorem not_signalStuck (hi : n.Inv P) (ht : n.ThreadReady) (hcrashed : n.crashed = false) :
    ¬ SignalStuck P exec n := by
  rintro ⟨hsignalled, hnever⟩
  have hstopped : n.stopped = false := hnever [] n .refl nofun
  have hidle : ∀ {m : Net σ}, m.thread = none → m.crashed = false → m.stopped = false →
      m.signalled = true →
      m.next P exec .shutdown = some { m with stopped := true, signalled := false } := by
    intro m h₁ h₂ h₃ h₄
    simp [next, h₁, h₂, h₃, h₄]
  cases hthread : n.thread with
  | none =>
    have := hnever _ _ (.tail .refl (hidle hthread hcrashed hstopped hsignalled)) (by simp [Event.isServer])
    cases this
  | some p =>
    obtain ⟨j, inside⟩ := p
    obtain ⟨result, n', hnext, hthread', hcrashed', hstopped', hsignalled'⟩ :=
      ht.completes exec hi hcrashed hstopped hthread
    have := hnever _ _
      (.tail (.tail .refl hnext) (hidle hthread' hcrashed' hstopped' (hsignalled'.trans hsignalled)))
      (by simp [Event.isServer])
    cases this

/-- In a run whose steps are all prompt the server goes on. -/
theorem serves_of_prompt {st₀ : σ} {events : List Event}
    (h : PromptSteps P exec { state := st₀ } events n) :
    ¬ Stuck P exec n ∧ ¬ SignalStuck P exec n := by
  obtain ⟨hready, hcrashed⟩ := h.ready
  have hi := h.steps.inv (.init st₀)
  exact ⟨not_stuck hi hready hcrashed, not_signalStuck hi hready hcrashed⟩

/-- A service that answers with the request. -/
def echo (request : Bytes) (st : Unit) : Outcome (Bytes × Unit) := .ok (request, st)

theorem prompt_echo {n : Net Unit} {e : Event}
    (h : ∀ i, e.readsHeader = some i → ∃ c, n.conns i = some c ∧ c.HeaderReady) :
    Prompt P echo n e where
  header := h
  served _ _ payload _ _ := ⟨payload, (), rfl, (Nat.mod_le _ _).trans (Nat.le_add_right _ _)⟩

/-- A client that sends a frame, takes the reply and closes, while another one connects. -/
theorem serves_one_client : ∃ events n,
    PromptSteps ⟨.little, 0⟩ echo { state := () } events n ∧ n.order.map Prod.fst = [0] ∧
      ¬ Stuck ⟨.little, 0⟩ echo n ∧ ¬ SignalStuck ⟨.little, 0⟩ echo n := by
  have hsteps : ∃ events n, PromptSteps ⟨.little, 0⟩ echo { state := () } events n ∧
      n.order.map Prod.fst = [0] :=
    ⟨_, _, .tail (.tail (.tail (.tail (.tail (.tail (.tail (.tail .refl
      (e := .connect 0) (prompt_echo nofun) rfl)
      (e := .deliver 0 (1 :: 0 :: 0 :: 0 :: ascii "A")) (prompt_echo nofun) rfl)
      (e := .accept 0) (prompt_echo fun i hi => by cases hi; exact ⟨_, rfl, .inl (by decide)⟩) rfl)
      (e := .complete 0 .header (some 4)) (prompt_echo nofun) rfl)
      (e := .complete 0 (.readSome ⟨0, 0⟩ 1 .doRead) (some 1)) (prompt_echo nofun) rfl)
      (e := .connect 1) (prompt_echo nofun) rfl)
      (e := .close 0) (prompt_echo nofun) rfl)
      (e := .complete 0 (.write (1 :: 0 :: 0 :: 0 :: ascii "A")) (some 5))
        (prompt_echo fun i hi => by cases hi; exact ⟨_, rfl, .inr rfl⟩) rfl, rfl⟩
  obtain ⟨events, n, h, horder⟩ := hsteps
  exact ⟨events, n, h, horder, serves_of_prompt h⟩

/-- While the thread is inside a header read that blocks and no signal comes, the server can do nothing. -/
theorem next_of_blocked {i : Nat} {inside : Inside} {c : Conn} (hthread : n.thread = some (i, inside))
    (hinterrupted : n.interrupted = false) (hc : n.conns i = some c) (hready : ¬ c.HeaderReady)
    {e : Event} (he : e.isServer = true) : n.next P exec e = none := by
  obtain ⟨hlen, hclosed⟩ := not_or.mp hready
  cases e with
  | accept j => cases hd : n.conns j <;> simp [next, hd, hthread]
  | shutdown => simp [next, hthread]
  | complete j op result =>
    cases hd : n.conns j with
    | none => simp [next, hd]
    | some d =>
      have hnone : ∀ m, c.complete P exec n.state .header (some m) = none := by
        intro m
        unfold Conn.complete
        cases c.session <;> simp [hlen]
      simp only [next, hd, hthread, Option.bind_eq_bind, Option.bind_some]
      split
      · rfl
      · split
        · next h =>
          obtain ⟨rfl, rfl, hends⟩ := h
          cases hc.symm.trans hd
          cases result with
          | some m =>
            rw [hnone]
            rfl
          | none => simp [hclosed, hinterrupted] at hends
        · rfl
  | _ => cases he

/-- The server makes no step of its own then. -/
theorem Steps.eq_of_blocked {events : List Event} (h : Steps P exec n events n')
    (hnone : ∀ e, e.isServer = true → n.next P exec e = none)
    (hserver : ∀ e ∈ events, e.isServer = true) : n' = n := by
  induction h with
  | refl => rfl
  | @tail events e _ _ _ hnext ih =>
    obtain ⟨hevents, he⟩ := List.forall_mem_append.mp hserver
    rw [ih hevents, hnone e (he e (List.mem_singleton_self e))] at hnext
    cases hnext

/-- A client that is accepted after a signal has come, and sends nothing, keeps the thread from the handler
of the signal and from another client's frame. -/
theorem captured_by_header : ∃ events n,
    Steps ⟨.little, 0⟩ execJson { state := ⟨[plainConfig], emptyRocks⟩ } events n ∧
      Stuck ⟨.little, 0⟩ execJson n ∧ SignalStuck ⟨.little, 0⟩ execJson n := by
  obtain ⟨events, n, hsteps, hthread, hinterrupted, ⟨c, hc, hinbox, hclosed⟩, ⟨d, hd, hopen, hawaits⟩,
      hstopped, hsignalled⟩ : ∃ events n,
      Steps ⟨.little, 0⟩ execJson { state := ⟨[plainConfig], emptyRocks⟩ } events n ∧
      n.thread = some (0, .acceptHandler) ∧ n.interrupted = false ∧
      (∃ c, n.conns 0 = some c ∧ c.inbox = [] ∧ c.closed = false) ∧
      (∃ d, n.conns 1 = some d ∧ d.closed = false ∧ d.Awaits ⟨.little, 0⟩) ∧
      n.stopped = false ∧ n.signalled = true :=
    ⟨_, _, .tail (.tail (.tail (.tail (.tail .refl
      (e := .connect 0) rfl)
      (e := .signal) rfl)
      (e := .accept 0) rfl)
      (e := .connect 1) rfl)
      (e := .deliver 1 (2 :: 0 :: 0 :: 0 :: ascii "\x7b\x7d")) rfl,
      rfl, rfl, ⟨_, rfl, rfl, rfl⟩, ⟨_, rfl, rfl, by decide, nofun⟩, rfl, rfl⟩
  have hnone : ∀ e, e.isServer = true → n.next ⟨.little, 0⟩ execJson e = none := by
    intro e he
    refine next_of_blocked hthread hinterrupted hc (not_or.mpr ⟨?_, ?_⟩) he
    · rw [hinbox]; decide
    · rw [hclosed]; exact Bool.false_ne_true
  refine ⟨events, n, hsteps, ⟨hstopped, ⟨1, d, hd, hopen, hawaits⟩, hnone⟩, hsignalled, ?_⟩
  intro events' n' h hserver
  rw [h.eq_of_blocked hnone hserver]
  exact hstopped

end Net

end RocksdbService
