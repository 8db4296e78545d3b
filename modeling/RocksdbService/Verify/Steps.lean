import Mathlib.Data.List.Induction
import RocksdbService.Verify.Stream

/-! # The steps of the server

What each event does to the state of the server (`next_cases`), and the invariant of its runs: every
connection agrees with what its client has sent, the thread is inside the header read of the only
session that waits for a header, and the acceptor waits unless the thread is in its handler. -/

namespace RocksdbService

namespace Conn

variable {σ : Type} {P : Platform} {exec : Bytes → σ → Outcome (Bytes × σ)} {c c' : Conn}

theorem inHeader_eq {s : Session} (hs : c.session = some s) :
    c.inHeader = true ↔ .header ∈ s.pending := by
  simp [inHeader, hs]

/-- After a header the session waits for something else. -/
theorem Inv.complete_header (h : c.Inv P) {st st' : σ} {result : Option Nat} {call : Option Call}
    (hr : c.complete P exec st .header result = some (.ok (c', st', call))) :
    c'.inHeader = false := by
  have hended : ∀ {s : Session}, c'.session = some s → s.pending = [] → c'.inHeader = false := by
    intro s hs hp
    rw [← Bool.not_eq_true, inHeader_eq hs, hp]
    exact List.not_mem_nil
  obtain ⟨s, _, hsession, hphase, -⟩ := h.of_complete hr
  generalize hrr : (Except.ok (c', st', call) : Outcome _) = r at hr
  cases complete_cases hsession hphase hr with
  | @header s' n htaken hlen hp =>
    cases hrr
    rw [← Bool.not_eq_true, inHeader_eq rfl]
    obtain ⟨buffer, size, handler, hpending⟩ := hp.pending_of_taken (Conn.take_size32_ne_nil hlen)
    rw [hpending, List.mem_singleton]
    intro h
    cases h
  | refused htaken hlen hsize hp => cases hrr; exact hended rfl hp
  | headerFailed htaken hp => cases hrr; exact hended rfl hp

end Conn

namespace Net

variable {σ : Type} {P : Platform} {exec : Bytes → σ → Outcome (Bytes × σ)} {n n' : Net σ}

@[simp] theorem setConn_self (n : Net σ) (i : Nat) (c : Conn) : (n.setConn i c).conns i = some c :=
  if_pos rfl

theorem setConn_ne (n : Net σ) {i j : Nat} (c : Conn) (h : j ≠ i) :
    (n.setConn i c).conns j = n.conns j := if_neg h

@[simp] theorem settle_conns (n : Net σ) (i : Nat) (c : Conn) (inside : Inside) :
    (n.settle i c inside).conns = n.conns := by
  unfold settle
  split <;> rfl

@[simp] theorem settle_crashed (n : Net σ) (i : Nat) (c : Conn) (inside : Inside) :
    (n.settle i c inside).crashed = n.crashed := by
  unfold settle
  split <;> rfl

/-- A connection of `n.setConn i c` is the new one or an old one. -/
theorem setConn_cases {i j : Nat} {c d : Conn} (h : (n.setConn i c).conns j = some d) :
    j = i ∧ d = c ∨ j ≠ i ∧ n.conns j = some d := by
  by_cases hj : j = i
  · subst hj
    rw [setConn_self] at h
    cases h
    exact .inl ⟨rfl, rfl⟩
  · rw [setConn_ne n c hj] at h
    exact .inr ⟨hj, h⟩

variable (P exec) in
/-- What the events do. -/
inductive Step (n : Net σ) : Event → Net σ → Prop
  | connect {i : Nat} (hnew : n.conns i = none) : Step n (.connect i) (n.setConn i {})
  | deliver {i : Nat} {bs : Bytes} {c : Conn} (hc : n.conns i = some c) (hopen : c.closed = false) :
    Step n (.deliver i bs) (n.setConn i { c with inbox := c.inbox ++ bs, sent := c.sent ++ bs })
  | close {i : Nat} {c : Conn} (hc : n.conns i = some c) :
    Step n (.close i) (n.setConn i { c with closed := true })
  | signal : Step n .signal { n with signalled := true, interrupted := true }
  | accept {i : Nat} {c : Conn} (hc : n.conns i = some c) (hidle : n.thread = none)
    (haccepting : n.accepting = true) (hsession : c.session = none) :
    Step n (.accept i)
      { n.setConn i c.start with
        accepting := false, thread := some (i, .acceptHandler), interrupted := false }
  | fault {i : Nat} {c : Conn} {op : Pending} {result : Option Nat} {f : Fault}
    (hc : n.conns i = some c) (h : c.complete P exec n.state op result = some (.error f)) :
    Step n (.complete i op result) { n with crashed := true }
  | complete {i : Nat} {c c' : Conn} {op : Pending} {result : Option Nat} {st' : σ}
    {call : Option Call} {inside : Inside} (hc : n.conns i = some c)
    (hthread : op = .header ∧ n.thread = some (i, inside) ∨
      op ≠ .header ∧ n.thread = none ∧ inside = .writeHandler)
    (h : c.complete P exec n.state op result = some (.ok (c', st', call))) :
    Step n (.complete i op result)
      { (n.setConn i c').settle i c' inside with
        state := st'
        order := n.order ++ call.toList.map (i, ·) }
  | shutdown (hidle : n.thread = none) :
    Step n .shutdown { n with stopped := true, signalled := false }

theorem completed_cases {i : Nat} {c : Conn} {op : Pending} {result : Option Nat} {inside : Inside}
    {r : Outcome (Conn × σ × Option Call)} (hc : n.conns i = some c)
    (hthread : op = .header ∧ n.thread = some (i, inside) ∨
      op ≠ .header ∧ n.thread = none ∧ inside = .writeHandler)
    (hr : c.complete P exec n.state op result = some r) :
    Step P exec n (.complete i op result) (n.completed i inside r) := by
  cases r with
  | error f => exact .fault hc hr
  | ok p =>
    obtain ⟨c', st', call⟩ := p
    simp only [completed]
    exact .complete hc hthread hr

theorem next_cases {e : Event} (h : n.next P exec e = some n') : Step P exec n e n' := by
  cases e with
  | connect i =>
    simp only [next] at h
    split at h
    · next hnew => cases h; exact .connect hnew
    · cases h
  | deliver i bs =>
    obtain ⟨c, hc, h⟩ := Option.bind_eq_some_iff.mp h
    split at h
    · cases h
    · next hopen => cases h; exact .deliver hc (Bool.not_eq_true _ ▸ hopen)
  | close i =>
    obtain ⟨c, hc, h⟩ := Option.bind_eq_some_iff.mp h
    cases h
    exact .close hc
  | signal => cases h; exact .signal
  | accept i =>
    obtain ⟨c, hc, h⟩ := Option.bind_eq_some_iff.mp h
    split at h
    · cases h
    · next hguard =>
      simp only [Bool.or_eq_true, Bool.not_eq_eq_eq_not, Bool.not_true, not_or, Bool.not_eq_true,
        Option.isSome_eq_false_iff, Option.isNone_iff_eq_none, Bool.not_eq_false] at hguard
      obtain ⟨⟨⟨-, hidle⟩, haccepting⟩, hsession⟩ := hguard
      cases h
      exact .accept hc hidle haccepting hsession
  | complete i op result =>
    obtain ⟨c, hc, h⟩ := Option.bind_eq_some_iff.mp h
    split at h
    · cases h
    split at h
    · next j inside hthread =>
      split at h
      · next hij =>
        obtain ⟨rfl, rfl, -⟩ := hij
        obtain ⟨r, hr, h⟩ := Option.bind_eq_some_iff.mp h
        cases h
        exact completed_cases hc (.inl ⟨rfl, hthread⟩) hr
      · cases h
    · next hidle =>
      split at h
      · cases h
      · next hop =>
        obtain ⟨r, hr, h⟩ := Option.bind_eq_some_iff.mp h
        cases h
        exact completed_cases hc (.inr ⟨hop, hidle, rfl⟩) hr
  | shutdown =>
    simp only [next] at h
    split at h
    · cases h
    · next hguard =>
      simp only [Bool.or_eq_true, not_or, Bool.not_eq_true, Option.isSome_eq_false_iff,
        Option.isNone_iff_eq_none] at hguard
      cases h
      exact .shutdown hguard.1.2

variable (P exec) in
/-- A run, with its events. -/
inductive Steps (n : Net σ) : List Event → Net σ → Prop
  | refl : Steps n [] n
  | tail {events : List Event} {e : Event} {n' n'' : Net σ} (h : Steps n events n')
    (hnext : n'.next P exec e = some n'') : Steps n (events ++ [e]) n''

/-- A run can be computed from its events. -/
theorem steps_of_foldlM {events : List Event} (h : events.foldlM (next P exec) n = some n') :
    Steps P exec n events n' := by
  induction events using List.reverseRecOn generalizing n' with
  | nil =>
    cases h
    exact .refl
  | append_singleton events e ih =>
    rw [List.foldlM_append] at h
    obtain ⟨m, hm, h⟩ := Option.bind_eq_some_iff.mp h
    obtain ⟨m', hm', h⟩ := Option.bind_eq_some_iff.mp h
    cases h
    exact .tail (ih hm) hm'

/-! ## The invariant -/

structure Inv (P : Platform) (n : Net σ) : Prop where
  conns : ∀ i c, n.conns i = some c → c.Inv P
  header : ∀ i c, n.conns i = some c → c.inHeader = true → ∃ inside, n.thread = some (i, inside)
  blocked : ∀ i inside, n.thread = some (i, inside) → ∃ c, n.conns i = some c ∧ c.inHeader = true
  accepting : n.accepting = false → ∃ i, n.thread = some (i, .acceptHandler)

theorem Inv.init (st₀ : σ) : Inv P { state := st₀ } where
  conns _ _ h := nomatch h
  header _ _ h := nomatch h
  blocked _ _ h := nomatch h
  accepting h := nomatch h

/-- A change of one connection that leaves the thread where it is. -/
theorem Inv.setConn (hi : n.Inv P) {i : Nat} {c : Conn} (hc : c.Inv P)
    (hheader : c.inHeader = true ↔ ∃ inside, n.thread = some (i, inside)) :
    (n.setConn i c).Inv P where
  conns j d hd := by
    rcases setConn_cases hd with ⟨-, rfl⟩ | ⟨-, hd⟩
    · exact hc
    · exact hi.conns j d hd
  header j d hd hin := by
    rcases setConn_cases hd with ⟨rfl, rfl⟩ | ⟨-, hd⟩
    · exact hheader.mp hin
    · exact hi.header j d hd hin
  blocked j inside hthread := by
    by_cases hj : j = i
    · subst hj
      exact ⟨c, setConn_self n j c, hheader.mpr ⟨inside, hthread⟩⟩
    · rw [setConn_ne n c hj]
      exact hi.blocked j inside hthread
  accepting := hi.accepting

/-- The thread is inside the header read of `c` exactly if `c` waits for a header. -/
theorem Inv.thread_iff (hi : n.Inv P) {i : Nat} {c : Conn} (hc : n.conns i = some c) :
    c.inHeader = true ↔ ∃ inside, n.thread = some (i, inside) := by
  refine ⟨hi.header i c hc, fun ⟨inside, hthread⟩ => ?_⟩
  obtain ⟨d, hd, hin⟩ := hi.blocked i inside hthread
  cases hc.symm.trans hd
  exact hin

theorem Inv.next {e : Event} (hi : n.Inv P) (h : n.next P exec e = some n') : n'.Inv P := by
  cases next_cases h with
  | connect hnew =>
    refine hi.setConn .connect ⟨nofun, fun ⟨inside, hthread⟩ => ?_⟩
    obtain ⟨c, hc, -⟩ := hi.blocked _ _ hthread
    cases hnew.symm.trans hc
  | deliver hc _ =>
    have hthread := hi.thread_iff hc
    exact hi.setConn ((hi.conns _ _ hc).deliver _) hthread
  | close hc =>
    have hthread := hi.thread_iff hc
    exact hi.setConn (hi.conns _ _ hc).close hthread
  | signal => exact ⟨hi.conns, hi.header, hi.blocked, hi.accepting⟩
  | fault => exact ⟨hi.conns, hi.header, hi.blocked, hi.accepting⟩
  | shutdown hidle => exact ⟨hi.conns, hi.header, hi.blocked, hi.accepting⟩
  | @accept i c hc hidle haccepting hsession =>
    refine ⟨fun j d hd => ?_, fun j d hd hin => ?_, fun j inside hthread => ?_, fun _ => ⟨i, rfl⟩⟩
    · rcases setConn_cases hd with ⟨-, rfl⟩ | ⟨-, hd⟩
      · exact (hi.conns _ _ hc).start hsession
      · exact hi.conns j d hd
    · rcases setConn_cases hd with ⟨rfl, -⟩ | ⟨-, hd⟩
      · exact ⟨_, rfl⟩
      · obtain ⟨inside, hthread⟩ := hi.header j d hd hin
        cases hidle.symm.trans hthread
    · cases hthread
      exact ⟨_, setConn_self n i _, rfl⟩
  | @complete i c c' op result st' call inside hc hthread hr =>
    have hc' : c'.Inv P := ((hi.conns i c hc).complete hr).1
    -- no other session is inside a header read
    have hother : ∀ j d, j ≠ i → n.conns j = some d → d.inHeader ≠ true := by
      intro j d hj hd hin
      obtain ⟨inside', ht⟩ := hi.header j d hd hin
      rcases hthread with ⟨-, ht'⟩ | ⟨-, ht', -⟩
      · cases ht.symm.trans ht'
        exact hj rfl
      · cases ht.symm.trans ht'
    have hconns : ∀ j d, (n.setConn i c').conns j = some d → d.Inv P := by
      intro j d hd
      rcases setConn_cases hd with ⟨-, rfl⟩ | ⟨-, hd⟩
      · exact hc'
      · exact hi.conns j d hd
    have hheader : ∀ j d, (n.setConn i c').conns j = some d → d.inHeader = true →
        j = i ∧ c'.inHeader = true := by
      intro j d hd hin
      rcases setConn_cases hd with ⟨rfl, rfl⟩ | ⟨hj, hd⟩
      · exact ⟨rfl, hin⟩
      · exact absurd hin (hother j d hj hd)
    unfold settle
    by_cases hin : c'.inHeader = true
    · rw [if_pos hin]
      refine ⟨hconns, fun j d hd hdin => ?_, fun j inside' ht => ?_, fun hacc => ?_⟩
      · exact ⟨inside, by rw [(hheader j d hd hdin).1]⟩
      · cases ht
        exact ⟨c', setConn_self n i c', hin⟩
      · rcases hthread with ⟨rfl, -⟩ | ⟨-, ht, -⟩
        · rw [(hi.conns i c hc).complete_header hr] at hin
          cases hin
        · obtain ⟨j, hj⟩ := hi.accepting hacc
          cases ht.symm.trans hj
    · rw [if_neg hin]
      refine ⟨hconns, fun j d hd hdin => ?_, fun j inside' ht => ?_, fun hacc => ?_⟩
      · exact absurd (hheader j d hd hdin).2 hin
      · cases ht
      · obtain ⟨hacc, hinside⟩ := Bool.or_eq_false_iff.mp hacc
        obtain ⟨j, hj⟩ := hi.accepting hacc
        rcases hthread with ⟨-, ht⟩ | ⟨-, ht, -⟩
        · cases hj.symm.trans ht
          exact absurd rfl (of_decide_eq_false hinside)
        · cases ht.symm.trans hj

theorem Steps.inv {events : List Event} {m : Net σ} (h : Steps P exec n events m) (hi : n.Inv P) :
    m.Inv P := by
  induction h with
  | refl => exact hi
  | tail _ hnext ih => exact ih.next hnext

end Net

end RocksdbService
