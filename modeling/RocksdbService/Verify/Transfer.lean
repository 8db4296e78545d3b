import RocksdbService.Service.Transfer
import RocksdbService.Verify.Blocking
import RocksdbService.Verify.Linearizability

/-! # Reads and writes in pieces

However the transport cuts the header of a request and the frames of the replies into pieces, the
server does what it does with whole ones (`Wire.refines`): a run of `Wire` is a run of `Net`, in which
the bytes of a header that is not complete have not been read yet, and what has come to a client is at
every moment the beginning of the frames of its replies. -/

namespace RocksdbService

open Outcome

/-- The connection before the header was begun. -/
def Conn.restore (header : Bytes) (c : Conn) : Conn := { c with inbox := header ++ c.inbox }

theorem Conn.restore_nil (c : Conn) : c.restore [] = c := rfl

/-- A session waits for one thing. -/
theorem Conn.Inv.pending_eq {P : Platform} {c : Conn} (h : c.Inv P) {s : Session} {op : Pending}
    (hs : c.session = some s) (hop : op ∈ s.pending) : s.pending = [op] := by
  cases h with
  | waiting hsession => cases hs.symm.trans hsession
  | alive hsession hphase =>
    cases hs.symm.trans hsession
    obtain ⟨op', hp⟩ := hphase.pending_eq
    rw [hp, List.mem_singleton] at hop
    rw [hp, hop]
  | ended hsession hpending =>
    cases hs.symm.trans hsession
    rw [hpending] at hop
    cases hop

namespace Net

variable {σ : Type} {P : Platform} {exec : Bytes → σ → Outcome (Bytes × σ)} {n n' : Net σ} {e : Event}

/-- An event that completes no operation of client `i` leaves its session alone. -/
theorem next_frame (h : n.next P exec e = some n') {i : Nat} {c : Conn} {s : Session}
    (hc : n.conns i = some c) (hs : c.session = some s) (he : ∀ op result, e ≠ .complete i op result) :
    ∃ c', n'.conns i = some c' ∧ c'.session = some s ∧ c'.calls = c.calls := by
  have hset : ∀ {j : Nat} {d d' : Conn}, n.conns j = some d → d'.session = d.session →
      d'.calls = d.calls →
        ∃ c', (n.setConn j d').conns i = some c' ∧ c'.session = some s ∧ c'.calls = c.calls := by
    intro j d d' hd hsession hcalls
    by_cases hj : i = j
    · subst hj
      cases hd.symm.trans hc
      exact ⟨d', setConn_self n i d', hsession.trans hs, hcalls⟩
    · exact ⟨c, (setConn_ne n d' hj).trans hc, hs, rfl⟩
  cases next_cases h with
  | @connect j hnew =>
    have hj : i ≠ j := by
      rintro rfl
      cases hnew.symm.trans hc
    exact ⟨c, (setConn_ne n {} hj).trans hc, hs, rfl⟩
  | deliver hd _ => exact hset hd rfl rfl
  | close hd => exact hset hd rfl rfl
  | signal => exact ⟨c, hc, hs, rfl⟩
  | shutdown => exact ⟨c, hc, hs, rfl⟩
  | fault => exact ⟨c, hc, hs, rfl⟩
  | @accept j d hd hidle haccepting hsession =>
    have hj : i ≠ j := by
      rintro rfl
      cases hd.symm.trans hc
      cases hsession.symm.trans hs
    exact ⟨c, (setConn_ne n d.start hj).trans hc, hs, rfl⟩
  | @complete j d d' op result st' call inside hd hthread hr =>
    have hj : i ≠ j := by
      rintro rfl
      exact he op result rfl
    refine ⟨c, ?_, hs, rfl⟩
    dsimp only
    rw [settle_conns, setConn_ne n d' hj, hc]

/-- While the thread is inside a read it stays there until an operation completes. -/
theorem next_thread (h : n.next P exec e = some n') {p : Nat × Inside} (hp : n.thread = some p)
    (he : ∀ i op result, e ≠ .complete i op result) : n'.thread = some p := by
  cases next_cases h with
  | accept hc hidle => cases hidle.symm.trans hp
  | shutdown hidle => cases hidle.symm.trans hp
  | fault => exact absurd rfl (he _ _ _)
  | complete => exact absurd rfl (he _ _ _)
  | _ => exact hp

end Net

/-- How much of the frame that is being written has come to the client. -/
def Transfer.sent (t : Transfer) : Nat := t.consumed + (t.result.getD none).getD 0

namespace Wire

variable {σ : Type} {P : Platform} {exec : Bytes → σ → Outcome (Bytes × σ)} {w w' : Wire σ}

/-! ## Headers that are read in pieces -/

@[simp] theorem setTransfer_self (w : Wire σ) (i : Nat) (t : Transfer) :
    (w.setTransfer i t).transfers i = t := if_pos rfl

theorem setTransfer_ne (w : Wire σ) {i j : Nat} (t : Transfer) (h : j ≠ i) :
    (w.setTransfer i t).transfers j = w.transfers j := if_neg h

/-- The server in which the bytes of a header that is not complete have not been read. -/
def whole (w : Wire σ) : Net σ :=
  { w.net with conns := fun i => (w.net.conns i).map (Conn.restore (w.transfers i).header) }

/-- A header is read while the thread is inside the read, or was left when the read failed. -/
def Tidy (w : Wire σ) : Prop := ∀ i, (w.transfers i).header ≠ [] → ∃ c s, w.net.conns i = some c ∧
  c.session = some s ∧ ((∃ inside, w.net.thread = some (i, inside)) ∨ s.pending = [])

theorem whole_conns {i : Nat} {c : Conn} (hc : w.net.conns i = some c) :
    w.whole.conns i = some (c.restore (w.transfers i).header) :=
  congrArg (Option.map (Conn.restore (w.transfers i).header)) hc

theorem whole_conns_none {i : Nat} (hc : w.net.conns i = none) : w.whole.conns i = none :=
  congrArg (Option.map (Conn.restore (w.transfers i).header)) hc

/-- A change of one connection and its transfer. -/
theorem whole_setConn (net : Net σ) (i : Nat) (c : Conn) (t : Transfer) :
    (({ w with net := net.setConn i c } : Wire σ).setTransfer i t).whole =
      ({ w with net } : Wire σ).whole.setConn i (c.restore t.header) := by
  refine congrArg (fun conns => { net with conns }) (funext fun j => ?_)
  by_cases hj : j = i
  · simp [Net.setConn, setTransfer, hj]
  · simp [Net.setConn, setTransfer, hj, whole]

theorem whole_setTransfer {i : Nat} {t : Transfer} (h : t.header = (w.transfers i).header) :
    (w.setTransfer i t).whole = w.whole := by
  refine congrArg (fun conns => { w.net with conns }) (funext fun j => ?_)
  by_cases hj : j = i
  · subst hj
    simp [setTransfer, h]
  · simp [setTransfer, hj]

/-- The end of a handler, with the transfer of the connection as it is then. -/
theorem whole_completed (i : Nat) (inside : Inside) (c : Conn) (st : σ) (call : Option Call)
    (t : Transfer) :
    (({ w with net := w.net.completed i inside (.ok (c, st, call)) } : Wire σ).setTransfer i t).whole =
      w.whole.completed i inside (.ok (c.restore t.header, st, call)) := by
  have hsettle : ∀ n : Net σ,
      (({ w with net := { n.settle i c inside with
        state := st, order := w.net.order ++ call.toList.map (i, ·) } } : Wire σ).setTransfer i t).whole =
      { (({ w with net := n } : Wire σ).setTransfer i t).whole.settle i (c.restore t.header) inside with
        state := st, order := w.net.order ++ call.toList.map (i, ·) } := by
    intro n
    unfold Net.settle
    rw [show (c.restore t.header).inHeader = c.inHeader from rfl]
    split <;> rfl
  rw [Net.completed, Net.completed, hsettle, whole_setConn]
  rfl

/-- What the server does does not depend on a header that another client has not completed. -/
theorem whole_next {e : Event} {net : Net σ} (hw : Tidy w)
    (he : ∀ i result, e ≠ .complete i .header result) (h : w.net.next P exec e = some net) :
    w.whole.next P exec e = some ({ w with net } : Wire σ).whole := by
  have hset : ∀ (i : Nat) (c : Conn), ({ w with net := w.net.setConn i c } : Wire σ).whole =
      w.whole.setConn i (c.restore (w.transfers i).header) := by
    intro i c
    rw [← whole_setConn, whole_setTransfer rfl]
  cases e with
  | connect i =>
    have hnew : w.net.conns i = none := by
      cases hc : w.net.conns i with
      | none => rfl
      | some c => simp [Net.next, hc] at h
    have hheader : (w.transfers i).header = [] := by
      by_contra hne
      obtain ⟨c, s, hc, -⟩ := hw i hne
      cases hnew.symm.trans hc
    simp only [Net.next, hnew, Option.some.injEq] at h
    subst h
    simp only [Net.next, whole_conns_none hnew]
    rw [hset, hheader]
    rfl
  | deliver i bs =>
    obtain ⟨c, hc, h⟩ := Option.bind_eq_some_iff.mp h
    split at h
    · cases h
    · next hopen =>
      cases h
      rw [hset]
      simp only [Net.next, whole_conns hc]
      change (if c.closed = true then none else _) = _
      rw [if_neg hopen]
      simp [Conn.restore, Net.setConn]
  | close i =>
    obtain ⟨c, hc, h⟩ := Option.bind_eq_some_iff.mp h
    cases h
    rw [hset]
    simp only [Net.next, whole_conns hc]
    rfl
  | signal =>
    cases h
    rfl
  | accept i =>
    obtain ⟨c, hc, h⟩ := Option.bind_eq_some_iff.mp h
    split at h
    · cases h
    · next hguard =>
      have hsession : c.session.isSome = false := by
        simp only [Bool.or_eq_true, not_or, Bool.not_eq_true] at hguard
        exact hguard.2
      have hheader : (w.transfers i).header = [] := by
        by_contra hne
        obtain ⟨d, s, hd, hs, -⟩ := hw i hne
        cases hc.symm.trans hd
        rw [hs] at hsession
        cases hsession
      have hwhole : w.whole.conns i = some c := by rw [whole_conns hc, hheader, Conn.restore_nil]
      have hguard' : ¬ (w.whole.stopped || w.whole.crashed || w.whole.thread.isSome ||
        !w.whole.accepting || c.session.isSome) = true := hguard
      have hstart := whole_setConn (w := w) { w.net with accepting := false } i c.start (w.transfers i)
      rw [whole_setTransfer rfl, hheader, Conn.restore_nil] at hstart
      cases h
      simp only [Net.next, hwhole, Option.bind_eq_bind, Option.bind_some, if_neg hguard']
      -- the session goes on to the header at once
      exact congrArg
        (fun n : Net σ => some { n with thread := some (i, .acceptHandler), interrupted := false })
        hstart.symm
  | complete i op result =>
    obtain ⟨c, hc, h⟩ := Option.bind_eq_some_iff.mp h
    split at h
    · cases h
    next hguard =>
    split at h
    · split at h
      · next hij => exact absurd (congrArg (Event.complete i · result) hij.2.1) (he i result)
      · cases h
    next hthread =>
    split at h
    · cases h
    next hop =>
    obtain ⟨r, hr, h⟩ := Option.bind_eq_some_iff.mp h
    cases h
    have hheader : (w.transfers i).header = [] := by
      by_contra hne
      obtain ⟨d, s, hd, hs, hinside | hpending⟩ := hw i hne
      · obtain ⟨inside, hinside⟩ := hinside
        cases hthread.symm.trans hinside
      · cases hc.symm.trans hd
        simp [Conn.complete, hs, hpending] at hr
    have hwhole : w.whole.conns i = some c := by rw [whole_conns hc, hheader, Conn.restore_nil]
    have hnext : w.whole.next P exec (.complete i op result) =
        some (w.whole.completed i .writeHandler r) := by
      have hguard' : ¬ (w.whole.stopped || w.whole.crashed) = true := hguard
      have hthread' : w.whole.thread = none := hthread
      have hr' : c.complete P exec w.whole.state op result = some r := hr
      simp only [Net.next, hwhole, Option.bind_eq_bind, Option.bind_some, if_neg hguard', hthread',
        if_neg hop, hr']
    rw [hnext]
    cases r with
    | error f => rfl
    | ok p =>
      obtain ⟨c', st', call⟩ := p
      have hdone := whole_completed (w := w) i .writeHandler c' st' call (w.transfers i)
      rw [whole_setTransfer rfl, hheader, Conn.restore_nil] at hdone
      rw [hdone]
  | shutdown =>
    simp only [Net.next] at h
    split at h
    · cases h
    · next hguard =>
      cases h
      have hguard' : ¬ (w.whole.stopped || w.whole.crashed || w.whole.thread.isSome ||
        !w.whole.signalled) = true := hguard
      simp only [Net.next, if_neg hguard']
      rfl

/-! ## The bytes that come to a client -/

/-- What has come to a client to which the frames `done` have been written. -/
inductive Flow (done : List Bytes) (c : Conn) (t : Transfer) : Prop
  | quiet (hreceived : t.received = done.flatten) (hconsumed : t.consumed = 0) (hresult : t.result = none)
  | writing {s : Session} {frame : Bytes} (hs : c.session = some s) (hpending : s.pending = [.write frame])
    (hreceived : t.received = done.flatten ++ frame.take (t.sent))
    (hsent : t.sent ≤ frame.length) (hpos : t.result ≠ some (some 0))
  | failed {s : Session} {frame : Bytes} {k : Nat} (hs : c.session = some s) (hpending : s.pending = [])
    (hcalls : c.calls.map Call.frame = done ++ [frame])
    (hreceived : t.received = done.flatten ++ frame.take k)

/-- While a frame is written its first bytes have come. -/
theorem Flow.of_write {done : List Bytes} {c : Conn} {t : Transfer} (h : Flow done c t) {s : Session}
    {frame : Bytes} (hs : c.session = some s) (hpending : s.pending = [.write frame]) :
    t.received = done.flatten ++ frame.take (t.sent) ∧ t.sent ≤ frame.length ∧
      t.result ≠ some (some 0) := by
  cases h with
  | quiet hreceived hconsumed hresult =>
    have hzero : t.sent = 0 := by rw [Transfer.sent, hconsumed, hresult]; rfl
    rw [hzero, hresult]
    refine ⟨?_, Nat.zero_le _, nofun⟩
    rw [List.take_zero, List.append_nil, hreceived]
  | writing hs' hpending' hreceived hsent hpos =>
    cases hs.symm.trans hs'
    cases hpending.symm.trans hpending'
    exact ⟨hreceived, hsent, hpos⟩
  | failed hs' hpending' =>
    cases hs.symm.trans hs'
    cases hpending.symm.trans hpending'

/-- Nothing is being written while the session waits for something else. -/
theorem Flow.of_other {done : List Bytes} {c : Conn} {t : Transfer} (h : Flow done c t) {s : Session}
    {op : Pending} (hs : c.session = some s) (hop : op ∈ s.pending) (hwrite : ∀ frame, op ≠ .write frame) :
    t.received = done.flatten ∧ t.consumed = 0 ∧ t.result = none := by
  cases h with
  | quiet hreceived hconsumed hresult => exact ⟨hreceived, hconsumed, hresult⟩
  | writing hs' hpending =>
    cases hs.symm.trans hs'
    rw [hpending, List.mem_singleton] at hop
    exact absurd hop (hwrite _)
  | failed hs' hpending =>
    cases hs.symm.trans hs'
    rw [hpending] at hop
    cases hop

/-- The first bytes of the replies. -/
theorem Flow.received_le {done : List Bytes} {c : Conn} {t : Transfer} (h : Flow done c t)
    (ho : c.Owes done) : done.flatten <+: t.received ∧
      t.received <+: (c.calls.map Call.frame).flatten := by
  obtain ⟨owed, hcalls, hlen, howed⟩ := ho
  cases h with
  | quiet hreceived =>
    rw [hreceived, hcalls, List.flatten_append]
    exact ⟨List.prefix_refl _, List.prefix_append _ _⟩
  | @writing s frame hs hpending hreceived =>
    have hone : owed = [frame] := by
      rw [howed s hs (by rw [hpending]; exact List.cons_ne_nil _ _), hpending]
      rfl
    rw [hreceived, hcalls, hone, List.flatten_append, List.flatten_singleton]
    exact ⟨List.prefix_append _ _, (List.prefix_append_right_inj _).mpr (List.take_prefix _ _)⟩
  | failed hs hpending hcalls' hreceived =>
    rw [hreceived, hcalls', List.flatten_append, List.flatten_singleton]
    exact ⟨List.prefix_append _ _, (List.prefix_append_right_inj _).mpr (List.take_prefix _ _)⟩

/-- An event that completes nothing of the client's, if its session takes no part in one. -/
theorem Flow.frame {done : List Bytes} {n n' : Net σ} {e : Event} {i : Nat} {t : Transfer}
    (h : Flow done (n.conn i) t) (hnext : n.next P exec e = some n')
    (hother : ∀ s, (n.conn i).session = some s →
      (s.pending = [] ∨ ∃ frame, s.pending = [.write frame]) →
        ∀ op result, e ≠ .complete i op result) : Flow done (n'.conn i) t := by
  have hkeep : ∀ {s : Session}, (n.conn i).session = some s →
      (s.pending = [] ∨ ∃ frame, s.pending = [.write frame]) →
        (n'.conn i).session = some s ∧ (n'.conn i).calls = (n.conn i).calls := by
    intro s hs hpending
    have hother := hother s hs hpending
    cases hc : n.conns i with
    | none => rw [Net.conn, hc] at hs; cases hs
    | some c =>
      rw [Net.conn_eq hc] at hs ⊢
      obtain ⟨c', hc', hs', hcalls⟩ := Net.next_frame hnext hc hs hother
      rw [Net.conn_eq hc']
      exact ⟨hs', hcalls⟩
  cases h with
  | quiet hreceived hconsumed hresult => exact .quiet hreceived hconsumed hresult
  | writing hs hpending hreceived hsent hpos =>
    exact .writing (hkeep hs (.inr ⟨_, hpending⟩)).1 hpending hreceived hsent hpos
  | failed hs hpending hcalls hreceived =>
    obtain ⟨hs', hcalls'⟩ := hkeep hs (.inl hpending)
    exact .failed hs' hpending (hcalls' ▸ hcalls) hreceived

/-! ## Steps -/

variable (P exec) in
/-- A run of `Wire` seen as a run of `Net` with the events `events`. -/
structure Inv (st₀ : σ) (w : Wire σ) (events : List Event) : Prop where
  steps : Net.Steps P exec { state := st₀ } events w.whole
  tidy : Tidy w
  flow : ∀ i, Flow (Net.answered i events) (w.whole.conn i) (w.transfers i)

variable {st₀ : σ} {events : List Event}

theorem Inv.net_inv (h : Inv P exec st₀ w events) : w.whole.Inv P := h.steps.inv (.init st₀)

/-- The operation that completes, unless it is the read of a header. -/
theorem next_complete {n n' : Net σ} {i : Nat} {op : Pending} {result : Option Nat}
    (h : n.next P exec (.complete i op result) = some n') (hop : op ≠ .header) :
    n.thread = none ∧ ∃ c s, n.conns i = some c ∧ c.session = some s ∧ op ∈ s.pending := by
  obtain ⟨c, hc, h⟩ := Option.bind_eq_some_iff.mp h
  split at h
  · cases h
  split at h
  · split at h
    · next hij => exact absurd hij.2.1 hop
    · cases h
  next hthread =>
  obtain ⟨r, hr, -⟩ := Option.bind_eq_some_iff.mp h
  refine ⟨hthread, c, ?_⟩
  unfold Conn.complete at hr
  cases hs : c.session with
  | none => rw [hs] at hr; cases hr
  | some s =>
    rw [hs] at hr
    refine ⟨s, hc, rfl, ?_⟩
    by_contra hmem
    simp only [if_pos hmem] at hr
    cases hr

/-- An event that does not end a composed operation keeps the headers in order. -/
theorem Tidy.next {e : Event} {net : Net σ} (hw : Tidy w)
    (he : ∀ i result, e ≠ .complete i .header result) (h : w.net.next P exec e = some net) :
    Tidy { w with net } := by
  intro i hheader
  obtain ⟨c, s, hc, hs, hinside⟩ := hw i hheader
  have hother : ∀ op result, e ≠ .complete i op result := by
    rintro op result rfl
    have hop : op ≠ .header := fun heq => he i result (by rw [heq])
    obtain ⟨hthread, d, s', hd, hs', hmem⟩ := next_complete h hop
    cases hc.symm.trans hd
    cases hs.symm.trans hs'
    rcases hinside with ⟨inside, hinside⟩ | hpending
    · cases hthread.symm.trans hinside
    · rw [hpending] at hmem
      cases hmem
  obtain ⟨c', hc', hs', -⟩ := Net.next_frame h hc hs hother
  refine ⟨c', s, hc', hs', hinside.imp_left ?_⟩
  rintro ⟨inside, hinside⟩
  refine ⟨inside, Net.next_thread h hinside ?_⟩
  rintro j op result rfl
  have hop : op ≠ .header := fun heq => he j result (by rw [heq])
  cases (next_complete h hop).1.symm.trans hinside

/-- An event of the server that ends no composed operation. -/
theorem Inv.net (hi : Inv P exec st₀ w events) {e : Event} {net : Net σ}
    (he : ∀ i result, e ≠ .complete i .header result)
    (he' : ∀ i frame result, e ≠ .complete i (.write frame) result)
    (h : w.net.next P exec e = some net) : Inv P exec st₀ { w with net } (events ++ [e]) := by
  have hnext := whole_next hi.tidy he h
  refine ⟨hi.steps.tail hnext, hi.tidy.next he h, fun i => ?_⟩
  have hanswered : Net.answered i [e] = [] := by
    cases e with
    | complete j op result =>
      cases op with
      | write frame => exact absurd rfl (he' j frame result)
      | header => simp [Net.answered, Conn.written]
      | readSome => simp [Net.answered, Conn.written]
    | _ => rfl
  rw [Net.answered_snoc, hanswered, List.append_nil]
  -- a session with an unfinished or failed write does not take part
  refine (hi.flow i).frame hnext ?_
  rintro s hs hpending op result rfl
  have hop : op ≠ .header := fun heq => he i result (by rw [heq])
  obtain ⟨-, c, s', hc, hs', hmem⟩ := next_complete hnext hop
  rw [Net.conn_eq hc] at hs
  cases hs.symm.trans hs'
  rcases hpending with hp | ⟨frame, hp⟩
  · rw [hp] at hmem
    cases hmem
  · rw [hp, List.mem_singleton] at hmem
    exact he' i frame result (by rw [hmem])

theorem Tidy.setTransfer (hw : Tidy w) {i : Nat} {t : Transfer}
    (hheader : t.header = (w.transfers i).header) : Tidy (w.setTransfer i t) := by
  intro j hne
  by_cases hj : j = i
  · subst hj
    rw [setTransfer_self, hheader] at hne
    exact hw j hne
  · rw [setTransfer_ne w t hj] at hne
    exact hw j hne

/-- A change of a transfer that leaves its header and what has come to the client in order. -/
theorem Inv.setTransfer (hi : Inv P exec st₀ w events) {i : Nat} {t : Transfer}
    (hheader : t.header = (w.transfers i).header)
    (hflow : Flow (Net.answered i events) (w.whole.conn i) t) :
    Inv P exec st₀ (w.setTransfer i t) events where
  steps := by
    rw [whole_setTransfer hheader]
    exact hi.steps
  tidy := hi.tidy.setTransfer hheader
  flow j := by
    rw [whole_setTransfer hheader]
    by_cases hj : j = i
    · subst hj
      rw [setTransfer_self]
      exact hflow
    · rw [setTransfer_ne w t hj]
      exact hi.flow j

/-- Bytes of a frame come to the client. -/
theorem Inv.writeSome (hi : Inv P exec st₀ w events) {i : Nat} {result : Option Nat}
    (h : w.next P exec (.writeSome i result) = some w') : Inv P exec st₀ w' events := by
  obtain ⟨c, hc, h⟩ := Option.bind_eq_some_iff.mp h
  obtain ⟨s, hs, h⟩ := Option.bind_eq_some_iff.mp h
  split at h
  · next frame hpending =>
    have hconn : w.whole.conn i = c.restore (w.transfers i).header := Net.conn_eq (whole_conns hc)
    have hs' : (w.whole.conn i).session = some s := by rw [hconn]; exact hs
    obtain ⟨hreceived, hsent, hpos⟩ := (hi.flow i).of_write hs' hpending
    dsimp only at h
    split at h
    · cases h
    next hnone =>
    split at h
    · cases h
    next hn =>
    cases h
    have hresult : (w.transfers i).result = none := by simpa using hnone
    have hconsumed : (w.transfers i).sent = (w.transfers i).consumed := by
      rw [Transfer.sent, hresult]
      rfl
    rw [hconsumed] at hreceived hsent
    refine hi.setTransfer rfl (.writing hs' hpending ?_ ?_ ?_)
    · dsimp only [Transfer.sent]
      rw [hreceived, List.append_assoc, List.take_add]
      cases result <;> rfl
    · dsimp only [Transfer.sent]
      cases result with
      | none => exact hsent
      | some n =>
        simp only [callback, Bool.false_eq_true, not_false_eq_true, true_and, not_not,
          ConsumingBuffer.prepare] at hn
        change (w.transfers i).consumed + n ≤ frame.length
        omega
    · dsimp only
      rintro heq
      cases result with
      | none => cases heq
      | some n =>
        cases heq
        simp [callback] at hn
  · cases h

/-- The handler of the write of a reply does not fault, and ends the session if the write failed. -/
theorem complete_write {c : Conn} (h : c.Inv P) {st : σ} {frame : Bytes} {result : Option Nat}
    {r : Outcome (Conn × σ × Option Call)}
    (hr : c.complete P exec st (.write frame) result = some r) :
    ∃ s, r = .ok ({ c with session := some s }, st, none) ∧ (result = none → s.pending = []) := by
  obtain ⟨s, _, hsession, hphase, -⟩ := h.of_complete hr
  generalize hop : Pending.write frame = op at hr
  cases Conn.complete_cases hsession hphase hr with
  | written => exact ⟨_, rfl, nofun⟩
  | writeFailed hp => exact ⟨_, rfl, fun _ => hp⟩
  | _ => cases hop

theorem writeOp_cases (b : ConsumingBuffer) {ec : Bool} {n : Nat} (hn : ec = false → 0 < n) :
    RocksdbService.writeOp b ec n = (b.consume n, none) ∧ ec = false ∨
      RocksdbService.writeOp b ec n = (b.consume n, some ec) ∧
        (ec = false → b.size ≤ b.totalConsumed + n) := by
  unfold RocksdbService.writeOp
  dsimp only
  cases ec with
  | true =>
    right
    split
    · exact ⟨rfl, nofun⟩
    · exact ⟨rfl, nofun⟩
  | false =>
    have hpos := hn rfl
    split
    · next h =>
      refine .inr ⟨rfl, fun _ => of_decide_eq_true ?_⟩
      rw [decide_eq_false hpos.ne', Bool.and_false, Bool.false_or] at h
      exact h
    · exact .inl ⟨rfl, rfl⟩

/-- The handler of the write of a reply runs: the frame has come, or the write has failed. -/
theorem Inv.completeWrite (hi : Inv P exec st₀ w events) {i k : Nat} {s : Session} {frame : Bytes}
    {result : Option Nat} {net : Net σ} (hs : (w.whole.conn i).session = some s)
    (hpending : s.pending = [.write frame])
    (hreceived : (w.transfers i).received = (Net.answered i events).flatten ++ frame.take k)
    (h : w.net.next P exec (.complete i (.write frame) result) = some net)
    (hall : result ≠ none → frame.length ≤ k) :
    Inv P exec st₀
      (({ w with net } : Wire σ).setTransfer i { w.transfers i with consumed := 0, result := none })
      (events ++ [.complete i (.write frame) result]) := by
  have hheader : ∀ j result', Event.complete i (.write frame) result ≠ .complete j .header result' := by
    intro j result' heq
    cases heq
  have hnext := whole_next hi.tidy hheader h
  have hwhole : (({ w with net } : Wire σ).setTransfer i
      { w.transfers i with consumed := 0, result := none }).whole = ({ w with net } : Wire σ).whole :=
    whole_setTransfer rfl
  refine ⟨?_, (hi.tidy.next hheader h).setTransfer rfl, fun j => ?_⟩
  · rw [hwhole]
    exact hi.steps.tail hnext
  rw [hwhole, Net.answered_snoc]
  by_cases hj : j = i
  · subst hj
    rw [setTransfer_self]
    generalize ({ w with net } : Wire σ).whole = n' at hnext ⊢
    cases Net.next_cases hnext with
    | fault hc hr =>
      obtain ⟨s', hr', -⟩ := complete_write (hi.net_inv.conns _ _ hc) hr
      cases hr'
    | @complete _ c c' _ _ st' call inside hc hthread hr =>
      obtain ⟨s', hr', hend⟩ := complete_write (hi.net_inv.conns _ _ hc) hr
      cases hr'
      have hconn : Net.conn { (w.whole.setConn j { c with session := some s' }).settle j
          { c with session := some s' } inside with
          state := w.whole.state, order := w.whole.order ++ [] } j =
          { c with session := some s' } := by
        rw [Net.conn]
        dsimp only
        rw [Net.settle_conns, Net.setConn_self, Option.getD_some]
      obtain ⟨owed, hcalls, -, howed⟩ := hi.steps.ordered.owes j
      have howed : owed = [frame] := by
        rw [howed s hs (by rw [hpending]; exact List.cons_ne_nil _ _), hpending]
        rfl
      rw [Net.conn_eq hc, howed] at hcalls
      cases result with
      | none =>
        have hanswered : Net.answered j [.complete j (.write frame) none] = [] := by
          simp [Net.answered, Conn.written]
        rw [hanswered, List.append_nil]
        refine .failed (congrArg Conn.session hconn) (hend rfl) ?_ hreceived
        exact (congrArg (fun d => d.calls.map Call.frame) hconn).trans hcalls
      | some n =>
        have hanswered : Net.answered j [.complete j (.write frame) (some n)] = [frame] := by
          simp [Net.answered, Conn.written]
        rw [hanswered]
        refine .quiet ?_ rfl rfl
        dsimp only
        rw [hreceived, List.take_of_length_le (hall (Option.some_ne_none n)), List.flatten_append,
          List.flatten_singleton]
  · have hanswered : Net.answered j [.complete i (.write frame) result] = [] := by
      simp [Net.answered, Ne.symm hj]
    rw [setTransfer_ne _ _ hj, hanswered, List.append_nil]
    refine (hi.flow j).frame hnext fun _ _ _ _ _ heq => hj ?_
    cases heq
    rfl

/-- The write of a reply goes on, or has come to its end. -/
theorem Inv.writeOp (hi : Inv P exec st₀ w events)
    {i : Nat} (h : w.next P exec (.writeOp i) = some w') :
    ∃ events', Inv P exec st₀ w' (events ++ events') := by
  obtain ⟨c, hc, h⟩ := Option.bind_eq_some_iff.mp h
  obtain ⟨s, hs, h⟩ := Option.bind_eq_some_iff.mp h
  obtain ⟨result, hresult, h⟩ := Option.bind_eq_some_iff.mp h
  dsimp only at h
  split at h
  case h_2 => cases h
  next frame hpending =>
  split at h
  · cases h
  have hconn : w.whole.conn i = c.restore (w.transfers i).header := Net.conn_eq (whole_conns hc)
  have hs' : (w.whole.conn i).session = some s := by rw [hconn]; exact hs
  obtain ⟨hreceived, hsent, hpos⟩ := (hi.flow i).of_write hs' hpending
  have hn : (callback result).1 = false → 0 < (callback result).2 := by
    cases result with
    | none => exact nofun
    | some n =>
      intro _
      refine Nat.pos_of_ne_zero fun h => hpos ?_
      change n = 0 at h
      rw [hresult, h]
  have hcount : (w.transfers i).sent = (w.transfers i).consumed + (callback result).2 := by
    rw [Transfer.sent, hresult]
    cases result <;> rfl
  rw [hcount] at hreceived hsent
  rcases writeOp_cases { size := frame.length, totalConsumed := (w.transfers i).consumed } hn with
    ⟨hop, -⟩ | ⟨hop, hall⟩
  · rw [hop] at h
    cases h
    refine ⟨[], ?_⟩
    rw [List.append_nil]
    exact hi.setTransfer rfl (.writing hs' hpending hreceived hsent nofun)
  · rw [hop] at h
    obtain ⟨net, hnet, h⟩ := Option.bind_eq_some_iff.mp h
    cases h
    refine ⟨[_], hi.completeWrite hs' hpending hreceived hnet fun hok => hall ?_⟩
    by_contra hec
    exact hok (if_pos (Bool.not_eq_false _ ▸ hec))

theorem readBufferSeq_cases (b : ConsumingBuffer) (ec : Bool) (n : Nat) :
    (readBufferSeq b ec n).2 = none ∧ ec = false ∧ b.totalConsumed + n < b.size ∨
      (readBufferSeq b ec n).2 = some ec ∧ (ec = false → b.size ≤ b.totalConsumed + n) := by
  unfold readBufferSeq
  dsimp only
  cases ec with
  | true =>
    right
    split
    · exact ⟨rfl, nofun⟩
    · exact ⟨rfl, nofun⟩
  | false =>
    split
    · next h => exact .inr ⟨rfl, fun _ => of_decide_eq_true h⟩
    · next h => exact .inl ⟨rfl, rfl, Nat.lt_of_not_le fun hle => h (decide_eq_true hle)⟩

/-- A part of the header does not change what has come to the client. -/
theorem Flow.setHeader {done : List Bytes} {c : Conn} {t : Transfer} (h : Flow done c t)
    (header : Bytes) : Flow done c { t with header } := by
  cases h with
  | quiet hreceived hconsumed hresult => exact .quiet hreceived hconsumed hresult
  | writing hs hpending hreceived hsent hpos => exact .writing hs hpending hreceived hsent hpos
  | failed hs hpending hcalls hreceived => exact .failed hs hpending hcalls hreceived

/-- A part of a header is read. -/
theorem Inv.readPart (hi : Inv P exec st₀ w events) {i n : Nat} {inside : Inside} {c : Conn}
    {s : Session} (hc : w.net.conns i = some c) (hs : c.session = some s)
    (hthread : w.net.thread = some (i, inside)) :
    Inv P exec st₀
      (({ w with net := w.net.setConn i { c with inbox := c.inbox.drop n } } : Wire σ).setTransfer i
        { w.transfers i with header := (w.transfers i).header ++ c.inbox.take n }) events := by
  have hwhole : (({ w with net := w.net.setConn i { c with inbox := c.inbox.drop n } } :
      Wire σ).setTransfer i
        { w.transfers i with header := (w.transfers i).header ++ c.inbox.take n }).whole = w.whole := by
    rw [whole_setConn]
    have hrestore : Conn.restore ((w.transfers i).header ++ c.inbox.take n)
        { c with inbox := c.inbox.drop n } = c.restore (w.transfers i).header := by
      simp [Conn.restore]
    refine congrArg (fun conns => { w.net with conns }) (funext fun j => ?_)
    by_cases hj : j = i
    · subst hj
      rw [if_pos rfl, hrestore, hc]
      rfl
    · rw [if_neg hj]
      rfl
  refine ⟨hwhole ▸ hi.steps, fun j hne => ?_, fun j => ?_⟩
  · by_cases hj : j = i
    · subst hj
      exact ⟨_, s, Net.setConn_self _ _ _, hs, .inl ⟨inside, hthread⟩⟩
    · rw [setTransfer_ne _ _ hj] at hne
      obtain ⟨d, s', hd, hs'⟩ := hi.tidy j hne
      exact ⟨d, s', (Net.setConn_ne _ _ hj).trans hd, hs'⟩
  · rw [hwhole]
    by_cases hj : j = i
    · subst hj
      rw [setTransfer_self]
      exact (hi.flow j).setHeader _
    · rw [setTransfer_ne _ _ hj]
      exact hi.flow j

/-- The read of a header comes to its end; `header` is left of it where it has failed. -/
theorem Inv.completeHeader (hi : Inv P exec st₀ w events) {i : Nat} {inside : Inside} {c d : Conn}
    {header : Bytes} {result : Option Nat} (hc : w.net.conns i = some c)
    (hthread : w.net.thread = some (i, inside)) (hrunning : ¬ (w.net.stopped || w.net.crashed) = true)
    (hends : (result.isSome || c.closed || w.net.interrupted) = true)
    (hr : (c.restore (w.transfers i).header).complete P exec w.net.state .header result =
      some (.ok (d.restore header, w.net.state, none)))
    (hleft : header ≠ [] → ∃ s, d.session = some s ∧ s.pending = []) :
    Inv P exec st₀
      (({ w with net := w.net.completed i inside (.ok (d, w.net.state, none)) } : Wire σ).setTransfer i
        { w.transfers i with header }) (events ++ [.complete i .header result]) := by
  have hnext : w.whole.next P exec (.complete i .header result) = some
      (({ w with net := w.net.completed i inside (.ok (d, w.net.state, none)) } : Wire σ).setTransfer i
        { w.transfers i with header }).whole := by
    have hrunning' : ¬ (w.whole.stopped || w.whole.crashed) = true := hrunning
    have hthread' : w.whole.thread = some (i, inside) := hthread
    have hends' : (result.isSome || (c.restore (w.transfers i).header).closed ||
      w.whole.interrupted) = true := hends
    have hr' : (c.restore (w.transfers i).header).complete P exec w.whole.state .header result =
      some (.ok (d.restore header, w.whole.state, none)) := hr
    rw [whole_completed]
    simp only [Net.next, whole_conns hc, Option.bind_eq_bind, Option.bind_some, if_neg hrunning',
      hthread', hends', and_self, if_true, hr']
    rfl
  have hconns : ∀ j, (w.net.completed i inside (.ok (d, w.net.state, none))).conns j =
      (w.net.setConn i d).conns j := fun j => congrFun (Net.settle_conns _ _ _ _) j
  refine ⟨hi.steps.tail hnext, fun j hne => ?_, fun j => ?_⟩
  · by_cases hj : j = i
    · subst hj
      rw [setTransfer_self] at hne
      obtain ⟨s, hs, hp⟩ := hleft hne
      exact ⟨d, s, by rw [← Net.setConn_self w.net j d]; exact hconns j, hs, .inr hp⟩
    · rw [setTransfer_ne _ _ hj] at hne
      obtain ⟨d', s, hd, hs, ⟨inside', hinside⟩ | hp⟩ := hi.tidy j hne
      · cases hthread.symm.trans hinside
        exact absurd rfl hj
      · exact ⟨d', s, by rw [← hd, ← Net.setConn_ne w.net d hj]; exact hconns j, hs, .inr hp⟩
  · have hanswered : Net.answered j [.complete i .header result] = [] := by
      simp [Net.answered, Conn.written]
    rw [Net.answered_snoc, hanswered, List.append_nil]
    by_cases hj : j = i
    · subst hj
      obtain ⟨s, _, hs, hphase, -⟩ := (hi.net_inv.conns _ _ (whole_conns hc)).of_complete hr
      have hpending := Conn.complete_pending hs hphase hr
      have hsession : (w.whole.conn j).session = some s := by
        rw [Net.conn_eq (whole_conns hc)]
        exact hs
      have hmem : .header ∈ s.pending := by
        rw [hpending]
        exact List.mem_singleton_self _
      have hwrite : ∀ frame, Pending.header ≠ .write frame := by
        intro frame h
        cases h
      obtain ⟨hreceived, hconsumed, hresult⟩ := (hi.flow j).of_other hsession hmem hwrite
      rw [setTransfer_self]
      exact .quiet hreceived hconsumed hresult
    · rw [setTransfer_ne _ _ hj]
      refine (hi.flow j).frame hnext fun _ _ _ _ _ heq => hj ?_
      cases heq
      rfl

/-- The read of a header goes on, or comes to its end. -/
theorem Inv.readSome (hi : Inv P exec st₀ w events) {i : Nat} {result : Option Nat}
    (h : w.next P exec (.readSome i result) = some w') :
    ∃ events', Inv P exec st₀ w' (events ++ events') := by
  obtain ⟨c, hc, h⟩ := Option.bind_eq_some_iff.mp h
  obtain ⟨s, hs, h⟩ := Option.bind_eq_some_iff.mp h
  obtain ⟨⟨j, inside⟩, hthread, h⟩ := Option.bind_eq_some_iff.mp h
  dsimp only at h
  split at h
  · cases h
  next hrunning =>
  split at h
  · cases h
  next hfailed =>
  split at h
  · cases h
  next hread =>
  simp only [Bool.or_eq_true, decide_eq_true_eq, not_or, not_not] at hrunning
  obtain ⟨⟨hstopped, hcrashed⟩, rfl⟩ := hrunning
  rw [Wire.readSome] at h
  dsimp only at h
  rcases readBufferSeq_cases { size := size32, totalConsumed := (w.transfers j).header.length }
    (callback result).1 (callback result).2 with ⟨hop, -⟩ | ⟨hop, hall⟩
  · rw [hop] at h
    cases h
    refine ⟨[], ?_⟩
    rw [List.append_nil]
    exact hi.readPart hc hs hthread
  · rw [hop] at h
    cases h
    have hinv := hi.net_inv.conns _ _ (whole_conns hc)
    obtain ⟨d, hd, hin⟩ := hi.net_inv.blocked j inside hthread
    cases hd.symm.trans (whole_conns hc)
    have hheader : .header ∈ s.pending := (Conn.inHeader_eq hs).mp hin
    cases result with
    | none =>
      have hends : (c.closed || w.net.interrupted) = true := by
        simpa only [callback, true_and, not_not] using hfailed
      have hpending : s.pending.erase .header = [] := by
        rw [hinv.pending_eq hs hheader]
        rfl
      refine ⟨[.complete j .header none], hi.completeHeader hc hthread ?_ hends ?_ ?_⟩
      · simp only [Bool.or_eq_true, not_or]
        exact ⟨hstopped, hcrashed⟩
      · simp [Conn.complete, Conn.restore, hs, hheader, callback]
      · exact fun _ => ⟨_, rfl, hpending⟩
    | some n =>
      simp only [callback, Bool.false_eq_true, not_false_eq_true, true_and, not_not,
        ConsumingBuffer.prepare] at hread hall
      refine ⟨[.complete j .header (some size32)], hi.completeHeader hc hthread ?_ rfl ?_ (absurd rfl)⟩
      · simp only [Bool.or_eq_true, not_or]
        exact ⟨hstopped, hcrashed⟩
      · have hcount : size32 = (w.transfers j).header.length + n := by
          have := hall trivial
          omega
        have htake : ((w.transfers j).header ++ c.inbox).take size32 =
            (w.transfers j).header ++ c.inbox.take n := by
          rw [hcount, List.take_length_add_append]
        have hdrop : ((w.transfers j).header ++ c.inbox).drop size32 = c.inbox.drop n := by
          rw [hcount, List.drop_length_add_append]
        have hlen : size32 ≤ ((w.transfers j).header ++ c.inbox).length := by
          rw [List.length_append]
          omega
        simp only [Conn.complete, Conn.restore, hs, hheader, not_true_eq_false, if_false, hlen, if_true,
          htake, hdrop, callback, Bool.false_eq_true, List.nil_append]

theorem Inv.next (hi : Inv P exec st₀ w events) {e : WireEvent} (h : w.next P exec e = some w') :
    ∃ events', Inv P exec st₀ w' (events ++ events') := by
  cases e with
  | net e =>
    unfold Wire.next at h
    split at h
    · cases h
    · cases h
    · next hheader hwrite heq =>
      cases heq
      obtain ⟨net, hnet, h⟩ := Option.map_eq_some_iff.mp h
      cases h
      exact ⟨[e], hi.net (fun i result he => hheader i result (by rw [he]))
        (fun i frame result he => hwrite i frame result (by rw [he])) hnet⟩
    · next heq => cases heq
    · next heq => cases heq
    · next heq => cases heq
  | readSome i result => exact hi.readSome h
  | writeSome i result => exact ⟨[], (List.append_nil events).symm ▸ hi.writeSome h⟩
  | writeOp i => exact hi.writeOp h

/-! ## Runs -/

variable (P exec) in
theorem Inv.init (st₀ : σ) : Inv P exec st₀ { net := { state := st₀ } } [] where
  steps := .refl
  tidy _ hne := absurd rfl hne
  flow _ := .quiet rfl rfl rfl

theorem Inv.run (hi : Inv P exec st₀ w events) {es : List WireEvent}
    (h : es.foldlM (Wire.next P exec) w = some w') : ∃ events', Inv P exec st₀ w' (events ++ events') := by
  refine foldlM_invariant (I := fun w => ∃ events', Inv P exec st₀ w (events ++ events')) ?_
    ⟨[], (List.append_nil events).symm ▸ hi⟩ h
  rintro w₁ e w₂ ⟨events₁, hi₁⟩ hnext
  obtain ⟨events₂, hi₂⟩ := hi₁.next hnext
  exact ⟨events₁ ++ events₂, List.append_assoc events events₁ events₂ ▸ hi₂⟩

theorem Inv.received_le (hi : Inv P exec st₀ w events) (i : Nat) :
    (Net.answered i events).flatten <+: (w.transfers i).received ∧
      (w.transfers i).received <+: ((Net.callsOf i w.net.order).map Call.frame).flatten := by
  obtain ⟨hleft, hright⟩ := (hi.flow i).received_le (hi.steps.ordered.owes i)
  exact ⟨hleft, (hi.steps.ordered.own i).symm ▸ hright⟩

/-- What has come to a client is at least the frames that are written and at most those of the replies
to the requests executed for it. -/
theorem refines {es : List WireEvent}
    (h : es.foldlM (Wire.next P exec) { net := { state := st₀ } } = some w) :
    ∃ events, Net.Steps P exec { state := st₀ } events w.whole ∧
      ∀ i, (Net.answered i events).flatten <+: (w.transfers i).received ∧
        (w.transfers i).received <+: ((Net.callsOf i w.net.order).map Call.frame).flatten := by
  obtain ⟨events, hi⟩ := (Inv.init P exec st₀).run h
  exact ⟨events, hi.steps, hi.received_le⟩

/-- The header of a request comes in three parts, and its reply goes in two, of which the second has not
come. -/
def echoInPieces : List WireEvent := [
  .net (.connect 0),
  .net (.accept 0),
  .net (.deliver 0 [1, 0]),
  .readSome 0 (some 2),
  .net (.deliver 0 (0 :: 0 :: ascii "A")),
  .readSome 0 (some 1),
  .readSome 0 (some 1),
  .net (.complete 0 (.readSome ⟨0, 0⟩ 1 .doRead) (some 1)),
  .writeSome 0 (some 3),
  .writeOp 0]

theorem refines_echo : ∃ (w : Wire Unit) (events : List Event),
    (w.transfers 0).received = [1, 0, 0] ∧ w.net.order.map Prod.fst = [0] ∧
      Net.Steps ⟨.little, 0⟩ Net.echo { state := () } events w.whole ∧
      ∀ i, (Net.answered i events).flatten <+: (w.transfers i).received ∧
        (w.transfers i).received <+: ((Net.callsOf i w.net.order).map Call.frame).flatten := by
  have hrun : ((echoInPieces.foldlM (Wire.next ⟨.little, 0⟩ Net.echo) { net := { state := () } }).map
      fun w => ((w.transfers 0).received, w.net.order.map Prod.fst)) = some ([1, 0, 0], [0]) := by
    decide +kernel
  obtain ⟨w, hw, hseen⟩ := Option.map_eq_some_iff.mp hrun
  obtain ⟨hreceived, horder⟩ := Prod.mk.inj hseen
  obtain ⟨events, hrefines⟩ := refines hw
  exact ⟨w, events, hreceived, horder, hrefines⟩

end Wire

end RocksdbService
