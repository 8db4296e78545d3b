import RocksdbService.Verify.Instance
import RocksdbService.Verify.Steps

/-! # The buffers that a session owns

`inp_data_` and `out_data_` are plain pointers, which each callback deletes or hands on. `Session.Owned`
says for every operation that a session waits for which blocks are live; every completion keeps it but
one: the handler in `do_read` drops its block when the read fails (`clean_iff`). Handlers that are never
called, but destroyed with the `io_context` when the process exits, are left out. -/

namespace RocksdbService

open Outcome

namespace Heap

/-- The live blocks are these. -/
def Owns (h : Heap) (ids : List Nat) : Prop := ∀ b, (h.blocks b).isSome ↔ b ∈ ids

variable {h h' : Heap} {ids : List Nat}

theorem Owns.alloc (ho : h.Owns ids) (n : Nat) : (h.alloc n).2.Owns (h.next :: ids) := by
  intro b
  simp only [Heap.alloc, setBlock, List.mem_cons]
  split
  · next hb => simp [hb]
  · next hb => simp [hb, ho b]

theorem Owns.write (ho : h.Owns ids) {p : Ptr} {bs : Bytes} (hw : h.write p bs = .ok h') :
    h'.Owns ids ∧ h'.next = h.next := by
  unfold Heap.write at hw
  split at hw
  · cases hw
  next old hold =>
  split at hw
  · cases hw
    refine ⟨fun b => ?_, rfl⟩
    rw [setBlock_blocks]
    split
    · next hb => simp [hb, ← ho p.block, hold]
    · exact ho b
  · cases hw

theorem Owns.free (ho : h.Owns ids) {p : Ptr} (hf : h.free (some p) = .ok h') :
    h'.Owns (ids.filter (· ≠ p.block)) ∧ h'.next = h.next := by
  simp only [Heap.free] at hf
  split at hf
  · cases hf
    refine ⟨fun b => ?_, rfl⟩
    rw [setBlock_blocks]
    split
    · next hb => simp [hb]
    · next hb => simp [hb, ho b]
  · cases hf

end Heap

namespace Session

variable {σ : Type} {P : Platform} {exec : Bytes → σ → Outcome (Bytes × σ)} {s s' : Session}

/-- A pointer was obtained from `new char[]`, and not to one of these blocks. -/
def Apart (s : Session) (p : Option Ptr) (ids : List Nat) : Prop :=
  ∀ q, p = some q → q.block < s.heap.next ∧ q.block ∉ ids

/-- The live blocks, for what the session waits for. -/
inductive Owned (s : Session) : Prop
  | header (hpending : s.pending = [.header]) (howns : s.heap.Owns []) (hout : s.Apart s.outData [])
  | payload {block size : Nat} {buffer : Ptr} {handler : ReadHandler}
    (hpending : s.pending = [.readSome buffer size handler]) (hinp : s.inpData = some ⟨block, 0⟩)
    (hblock : block < s.heap.next) (howns : s.heap.Owns [block]) (hout : s.Apart s.outData [block])
  | writing {inp out : Nat} {frame : Bytes} (hpending : s.pending = [.write frame])
    (hinp : s.inpData = some ⟨inp, 0⟩) (hout : s.outData = some ⟨out, 0⟩) (hne : inp ≠ out)
    (hlt : out < s.heap.next) (howns : s.heap.Owns [inp, out])
  | ended (hpending : s.pending = []) (howns : s.heap.Owns [])

/-- The session has ended and a block is live. -/
def Leaked (s : Session) : Prop := s.pending = [] ∧ ∃ block, s.heap.Owns [block]

theorem headerRead_owned (hpending : s.pending = []) (howns : s.heap.Owns [])
    (hout : s.Apart s.outData []) (header : Option Bytes) : (s.headerRead P header).Owned := by
  cases header with
  | none => exact .ended hpending howns
  | some header =>
    unfold headerRead
    dsimp only
    split
    · exact .ended hpending howns
    · refine .payload (by simp [await, hpending]; exact ⟨rfl, rfl, rfl⟩) rfl (Nat.lt_succ_self _)
        (howns.alloc _) fun q hq => ?_
      obtain ⟨hlt, -⟩ := hout q hq
      exact ⟨Nat.lt_succ_of_lt hlt, by rw [List.mem_singleton]; exact hlt.ne⟩

/-- `do_write` owns both buffers when it returns. -/
theorem doWrite_owned {block len : Nat} {st : σ} {h : Handled σ} (hpending : s.pending = [])
    (hinp : s.inpData = some ⟨block, 0⟩) (hblock : block < s.heap.next) (howns : s.heap.Owns [block])
    (hr : s.doWrite P exec st len = .ok h) : h.session.Owned := by
  unfold doWrite at hr
  dsimp only at hr
  obtain ⟨p, -, hr⟩ := bind_eq_ok.mp hr
  obtain ⟨request, -, hr⟩ := bind_eq_ok.mp hr
  obtain ⟨⟨out, st'⟩, -, hr⟩ := bind_eq_ok.mp hr
  obtain ⟨heap₁, hw₁, hr⟩ := bind_eq_ok.mp hr
  obtain ⟨heap₂, hw₂, hr⟩ := bind_eq_ok.mp hr
  obtain ⟨bytes, -, hr⟩ := bind_eq_ok.mp hr
  cases hr
  obtain ⟨howns₁, hnext₁⟩ := (howns.alloc _).write hw₁
  obtain ⟨howns₂, hnext₂⟩ := howns₁.write hw₂
  refine .writing (by simp [await, hpending]; rfl) hinp rfl hblock.ne ?_ fun b => ?_
  · rw [show (await _ _).heap.next = heap₂.next from rfl, hnext₂, hnext₁]
    exact Nat.lt_succ_self _
  · rw [show (await _ _).heap.blocks b = heap₂.blocks b from rfl, howns₂]
    simp [or_comm]

/-- A read of the payload has succeeded. -/
theorem readHandler_owned {block n : Nat} {st : σ} {handler : ReadHandler} {h : Handled σ}
    (hpending : s.pending = []) (hinp : s.inpData = some ⟨block, 0⟩) (hblock : block < s.heap.next)
    (howns : s.heap.Owns [block]) (hout : s.Apart s.outData [block])
    (hr : s.readHandler P exec st handler (some n) = .ok h) : h.session.Owned := by
  have hrest : ∀ buffer length, (s.readRest buffer length).Owned := fun buffer length =>
    .payload (by simp [readRest, await, hpending]; exact ⟨rfl, rfl, rfl⟩) hinp hblock howns hout
  cases handler with
  | doRead =>
    simp only [readHandler] at hr
    split at hr
    · obtain ⟨p, -, hr⟩ := bind_eq_ok.mp hr
      cases hr
      exact hrest _ _
    · exact doWrite_owned hpending hinp hblock howns hr
  | readRest buffer length =>
    simp only [readHandler] at hr
    split at hr
    · cases hr
      exact hrest _ _
    · exact doWrite_owned hpending hinp hblock howns hr

/-- A read of the payload has failed: `read_rest` deletes the buffer, `do_read` does not. -/
theorem readHandler_none_owned {block : Nat} {st : σ} {handler : ReadHandler} {h : Handled σ}
    (hpending : s.pending = []) (hinp : s.inpData = some ⟨block, 0⟩) (howns : s.heap.Owns [block])
    (hr : s.readHandler P exec st handler none = .ok h) :
    (handler = .doRead → h.session.Leaked) ∧ (handler ≠ .doRead → h.session.Owned) := by
  cases handler with
  | doRead =>
    cases hr
    exact ⟨fun _ => ⟨hpending, block, howns⟩, fun hne => absurd rfl hne⟩
  | readRest buffer length =>
    obtain ⟨heap, hf, hr⟩ := bind_eq_ok.mp hr
    cases hr
    rw [hinp] at hf
    obtain ⟨howns', -⟩ := howns.free hf
    refine ⟨nofun, fun _ => .ended hpending ?_⟩
    simpa using howns'

theorem writeHandler_owned {inp out : Nat} {success : Bool} (hpending : s.pending = [])
    (hinp : s.inpData = some ⟨inp, 0⟩) (hout : s.outData = some ⟨out, 0⟩)
    (hlt : out < s.heap.next) (howns : s.heap.Owns [inp, out])
    (hr : s.writeHandler success = .ok s') : s'.Owned := by
  obtain ⟨heap₁, hf₁, hr⟩ := bind_eq_ok.mp hr
  obtain ⟨heap₂, hf₂, hr⟩ := bind_eq_ok.mp hr
  rw [hinp] at hf₁
  rw [hout] at hf₂
  obtain ⟨howns₁, hnext₁⟩ := howns.free hf₁
  obtain ⟨howns₂, hnext₂⟩ := howns₁.free hf₂
  have hnil : heap₂.Owns [] := by
    intro b
    rw [howns₂]
    simp
  cases hr
  cases success with
  | true =>
    refine .header (by simp [doRead, await, hpending]) hnil fun q hq => ?_
    cases hout.symm.trans hq
    refine ⟨?_, List.not_mem_nil⟩
    rw [if_pos rfl]
    exact (hnext₂.trans hnext₁).symm ▸ hlt
  | false => exact .ended hpending hnil

end Session

namespace Conn

variable {σ : Type} {P : Platform} {exec : Bytes → σ → Outcome (Bytes × σ)} {c c' : Conn}

/-- The read that `do_read` starts fails. -/
def FirstReadFails (op : Pending) (result : Option Nat) : Prop :=
  ∃ buffer size, op = .readSome buffer size .doRead ∧ result = none

/-- What a completion does to the live blocks. -/
theorem complete_owned {s : Session} (hs : c.session = some s) (ho : s.Owned) {st st' : σ}
    {op : Pending} {result : Option Nat} {call : Option Call}
    (hr : c.complete P exec st op result = some (.ok (c', st', call))) :
    ∃ s', c'.session = some s' ∧ (FirstReadFails op result → s'.Leaked) ∧
      (¬ FirstReadFails op result → s'.Owned) := by
  have howned : ∀ {s' : Session}, c'.session = some s' → s'.Owned → ¬ FirstReadFails op result →
      ∃ s', c'.session = some s' ∧ (FirstReadFails op result → s'.Leaked) ∧
        (¬ FirstReadFails op result → s'.Owned) :=
    fun hs' ho' hfirst => ⟨_, hs', fun h => absurd h hfirst, fun _ => ho'⟩
  unfold complete at hr
  rw [hs] at hr
  dsimp only at hr
  split at hr
  · cases hr
  next hop =>
  rw [not_not] at hop
  cases ho with
  | ended hpending => rw [hpending] at hop; cases hop
  | header hpending howns hout =>
    rw [hpending, List.mem_singleton] at hop
    subst hop
    have herase : s.pending.erase .header = [] := by simp [hpending]
    cases result with
    | some n =>
      dsimp only at hr
      split at hr
      · cases hr
        exact howned rfl (Session.headerRead_owned
          (s := { s with pending := s.pending.erase .header }) herase howns hout _) nofun
      · cases hr
    | none =>
      cases hr
      exact howned rfl (Session.headerRead_owned
        (s := { s with pending := s.pending.erase .header }) herase howns hout _) nofun
  | @payload block size buffer handler hpending hinp hblock howns hout =>
    rw [hpending, List.mem_singleton] at hop
    subst hop
    have herase : s.pending.erase (.readSome buffer size handler) = [] := by simp [hpending]
    cases result with
    | some n =>
      dsimp only at hr
      split at hr
      · obtain ⟨heap, hw, hr⟩ := bind_eq_ok.mp (Option.some.inj hr)
        obtain ⟨h, hh, hr⟩ := bind_eq_ok.mp hr
        cases hr
        obtain ⟨howns', hnext⟩ := howns.write hw
        refine howned rfl (Session.readHandler_owned
          (s := { s with heap, pending := s.pending.erase (.readSome buffer size handler) })
          herase hinp (hnext ▸ hblock) howns' ?_ hh) ?_
        · intro q hq
          obtain ⟨hlt, hmem⟩ := hout q hq
          exact ⟨hnext ▸ hlt, hmem⟩
        · rintro ⟨_, _, _, h⟩
          cases h
      · cases hr
    | none =>
      obtain ⟨h, hh, hr⟩ := bind_eq_ok.mp (Option.some.inj hr)
      cases hr
      obtain ⟨hleaked, hkept⟩ := Session.readHandler_none_owned
        (s := { s with pending := s.pending.erase (.readSome buffer size handler) }) herase hinp howns hh
      refine ⟨h.session, rfl, ?_, fun hfirst => hkept ?_⟩
      · rintro ⟨_, _, hop, -⟩
        cases hop
        exact hleaked rfl
      · rintro rfl
        exact hfirst ⟨_, _, rfl, rfl⟩
  | @writing inp out frame hpending hinp hout hne hlt howns =>
    rw [hpending, List.mem_singleton] at hop
    subst hop
    have herase : s.pending.erase (.write frame) = [] := by simp [hpending]
    obtain ⟨s', hs', hr⟩ := bind_eq_ok.mp (Option.some.inj hr)
    cases hr
    exact howned rfl (Session.writeHandler_owned
      (s := { s with pending := s.pending.erase (.write frame) }) herase hinp hout hlt howns hs') nofun

/-- The failure of that read is no fault. -/
theorem not_firstReadFails_of_fault (h : c.Inv P) {st : σ} {op : Pending} {result : Option Nat}
    {f : Fault} (hr : c.complete P exec st op result = some (.error f)) :
    ¬ FirstReadFails op result := by
  rintro ⟨buffer, size, rfl, rfl⟩
  obtain ⟨_, _, hsession, hphase, -⟩ := h.of_complete hr
  generalize hrr : (Except.error f : Outcome (Conn × σ × Option Call)) = r at hr
  cases complete_cases hsession hphase hr with
  | payloadFailed => cases hrr

variable (P exec) in
/-- Nothing is leaked, and nothing will be deleted twice or used after its delete. -/
structure Clean (c : Conn) (st : σ) : Prop where
  waiting : ∀ s, c.session = some s → .header ∈ s.pending → s.heap.Owns []
  destroyed : ∀ s, c.session = some s → s.pending = [] → s.heap.Owns []
  /-- The pointers that the next handler may overwrite point to no live block. -/
  overwritten : ∀ s, c.session = some s →
    (.header ∈ s.pending → ∀ p, s.inpData = some p → s.heap.blocks p.block = none) ∧
    (∀ buffer size handler, .readSome buffer size handler ∈ s.pending →
      ∀ p, s.outData = some p → s.heap.blocks p.block = none)
  /-- A handler faults only as `exec_json` does, or for lack of room for its reply. -/
  fault : ∀ op result f, c.complete P exec st op result = some (.error f) →
    ∃ payload, c.requests ++ [payload] <+: P.framing.decode c.sent ∧ ¬ Served P exec st payload

theorem clean_of_owned (h : c.Inv P) (howned : ∀ s, c.session = some s → s.Owned) (st : σ) :
    c.Clean P exec st where
  waiting s hs hheader := by
    cases howned s hs with
    | header _ howns => exact howns
    | ended _ howns => exact howns
    | payload hpending => rw [hpending, List.mem_singleton] at hheader; cases hheader
    | writing hpending => rw [hpending, List.mem_singleton] at hheader; cases hheader
  destroyed s hs hnil := by
    cases howned s hs with
    | header hpending => rw [hpending] at hnil; cases hnil
    | ended _ howns => exact howns
    | payload hpending => rw [hpending] at hnil; cases hnil
    | writing hpending => rw [hpending] at hnil; cases hnil
  overwritten s hs := by
    have hnone : ∀ {ids : List Nat} {b : Nat}, s.heap.Owns ids → b ∉ ids → s.heap.blocks b = none := by
      intro ids b howns hb
      rwa [← howns b, Bool.not_eq_true, Option.isSome_eq_false_iff, Option.isNone_iff_eq_none] at hb
    cases howned s hs with
    | header hpending howns hout =>
      refine ⟨fun _ p _ => hnone howns List.not_mem_nil, fun buffer size handler hop => ?_⟩
      rw [hpending, List.mem_singleton] at hop
      cases hop
    | ended hpending howns =>
      exact ⟨fun _ p _ => hnone howns List.not_mem_nil, fun _ _ _ _ p _ => hnone howns List.not_mem_nil⟩
    | payload hpending hinp hblock howns hout =>
      refine ⟨fun hop => ?_, fun _ _ _ _ p hp => hnone howns (hout p hp).2⟩
      rw [hpending, List.mem_singleton] at hop
      cases hop
    | writing hpending =>
      refine ⟨fun hop => ?_, fun _ _ _ hop => ?_⟩
      · rw [hpending, List.mem_singleton] at hop
        cases hop
      · rw [hpending, List.mem_singleton] at hop
        cases hop
  fault op result f hr := complete_fault h hr

end Conn

namespace Net

variable {σ : Type} {P : Platform} {exec : Bytes → σ → Outcome (Bytes × σ)} {n n' : Net σ}

/-- The read that `do_read` starts has failed for client `i`. -/
def FirstReadFailed (i : Nat) (events : List Event) : Prop :=
  ∃ op result, .complete i op result ∈ events ∧ Conn.FirstReadFails op result

theorem firstReadFailed_snoc {i : Nat} {events : List Event} {e : Event} :
    FirstReadFailed i (events ++ [e]) ↔ FirstReadFailed i events ∨
      ∃ op result, e = .complete i op result ∧ Conn.FirstReadFails op result := by
  constructor
  · rintro ⟨op, result, hmem, hfirst⟩
    rcases List.mem_append.mp hmem with hmem | hmem
    · exact .inl ⟨op, result, hmem, hfirst⟩
    · exact .inr ⟨op, result, (List.mem_singleton.mp hmem).symm, hfirst⟩
  · rintro (⟨op, result, hmem, hfirst⟩ | ⟨op, result, rfl, hfirst⟩)
    · exact ⟨op, result, List.mem_append_left _ hmem, hfirst⟩
    · exact ⟨op, result, List.mem_append_right _ (List.mem_singleton_self _), hfirst⟩

/-- Every session owns its buffers, except those that a failed first read has left. -/
structure Owned (events : List Event) (n : Net σ) : Prop where
  kept : ∀ i c s, n.conns i = some c → c.session = some s → ¬ FirstReadFailed i events → s.Owned
  leaked : ∀ i, FirstReadFailed i events →
    ∃ c s, n.conns i = some c ∧ c.session = some s ∧ s.Leaked

variable {events : List Event}

theorem Owned.init (st₀ : σ) : Owned [] { state := st₀ } where
  kept _ _ _ hc := nomatch hc
  leaked _ h := by
    obtain ⟨op, result, hmem, -⟩ := h
    cases hmem

/-- An event that completes nothing and leaves the sessions as they are. -/
theorem Owned.frame {e : Event} (ho : Owned events n)
    (he : ∀ i op result, e = .complete i op result → ¬ Conn.FirstReadFails op result)
    (hconns : ∀ i c' s, n'.conns i = some c' → c'.session = some s →
      s.Owned ∨ ∃ c, n.conns i = some c ∧ c.session = some s)
    (hkept : ∀ i c s, n.conns i = some c → c.session = some s →
      ∃ c', n'.conns i = some c' ∧ c'.session = some s) : Owned (events ++ [e]) n' where
  kept i c' s hc' hs hfirst := by
    rcases hconns i c' s hc' hs with howned | ⟨c, hc, hs⟩
    · exact howned
    · exact ho.kept i c s hc hs fun h => hfirst (firstReadFailed_snoc.mpr (.inl h))
  leaked i hfirst := by
    rcases firstReadFailed_snoc.mp hfirst with hfirst | ⟨op, result, heq, hop⟩
    · obtain ⟨c, s, hc, hs, hleaked⟩ := ho.leaked i hfirst
      obtain ⟨c', hc', hs'⟩ := hkept i c s hc hs
      exact ⟨c', s, hc', hs', hleaked⟩
    · exact absurd hop (he i op result heq)

/-- The same for an event that changes one connection. -/
theorem Owned.frame_setConn {e : Event} (ho : Owned events n) {i : Nat} {c : Conn}
    (he : ∀ i op result, e = .complete i op result → ¬ Conn.FirstReadFails op result)
    (hn : n'.conns = (n.setConn i c).conns)
    (hnew : ∀ s, c.session = some s → s.Owned ∨ ∃ d, n.conns i = some d ∧ d.session = some s)
    (hold : ∀ d s, n.conns i = some d → d.session = some s → c.session = some s) :
    Owned (events ++ [e]) n' := by
  refine ho.frame he (fun j c' s hc' hs => ?_) (fun j d s hd hs => ?_)
  · rw [hn] at hc'
    rcases setConn_cases hc' with ⟨rfl, rfl⟩ | ⟨-, hc'⟩
    · exact hnew s hs
    · exact .inr ⟨c', hc', hs⟩
  · rw [hn]
    by_cases hj : j = i
    · subst hj
      exact ⟨c, setConn_self n j c, hold d s hd hs⟩
    · exact ⟨d, (setConn_ne n c hj).trans hd, hs⟩

theorem Owned.next {e : Event} (ho : Owned events n) (hi : n.Inv P)
    (h : n.next P exec e = some n') : Owned (events ++ [e]) n' := by
  cases next_cases h with
  | connect hnew =>
    refine ho.frame_setConn nofun rfl nofun fun d s hd => ?_
    cases hnew.symm.trans hd
  | deliver hc hopen =>
    refine ho.frame_setConn nofun rfl (fun s hs => .inr ⟨_, hc, hs⟩) fun d s hd hs => ?_
    cases hc.symm.trans hd
    exact hs
  | close hc =>
    refine ho.frame_setConn nofun rfl (fun s hs => .inr ⟨_, hc, hs⟩) fun d s hd hs => ?_
    cases hc.symm.trans hd
    exact hs
  | signal => exact ho.frame nofun (fun i c s hc hs => .inr ⟨c, hc, hs⟩) fun i c s hc hs => ⟨c, hc, hs⟩
  | shutdown => exact ho.frame nofun (fun i c s hc hs => .inr ⟨c, hc, hs⟩) fun i c s hc hs => ⟨c, hc, hs⟩
  | fault hc hr =>
    refine ho.frame (fun j op result heq => ?_) (fun i c s hc hs => .inr ⟨c, hc, hs⟩)
      fun i c s hc hs => ⟨c, hc, hs⟩
    cases heq
    exact Conn.not_firstReadFails_of_fault (hi.conns _ _ hc) hr
  | accept hc hidle haccepting hsession =>
    refine ho.frame_setConn nofun rfl (fun s hs => .inl ?_) fun d s hd hs => ?_
    · cases hs
      exact .header rfl (fun b => ⟨nofun, nofun⟩) nofun
    · cases hc.symm.trans hd
      cases hsession.symm.trans hs
  | @complete i c c' op result st' call inside hc hthread hr =>
    have hcomplete : ∀ {s : Session}, c.session = some s → s.pending ≠ [] := by
      intro s hs hpending
      rw [Conn.complete_ended hs hpending] at hr
      cases hr
    have hnot : ¬ FirstReadFailed i events := by
      intro hfirst
      obtain ⟨d, s, hd, hs, hpending, -⟩ := ho.leaked i hfirst
      cases hc.symm.trans hd
      exact hcomplete hs hpending
    obtain ⟨s, hs⟩ : ∃ s, c.session = some s := by
      cases hs : c.session with
      | none => simp [Conn.complete, hs] at hr
      | some s => exact ⟨s, rfl⟩
    obtain ⟨s', hs', hleaked, hkept⟩ := Conn.complete_owned hs (ho.kept i c s hc hs hnot) hr
    refine ⟨fun j d t hd ht hfirst => ?_, fun j hfirst => ?_⟩
    · rw [settle_conns] at hd
      rcases setConn_cases hd with ⟨rfl, rfl⟩ | ⟨hj, hd⟩
      · cases hs'.symm.trans ht
        exact hkept fun h => hfirst (firstReadFailed_snoc.mpr (.inr ⟨op, result, rfl, h⟩))
      · exact ho.kept j d t hd ht fun h => hfirst (firstReadFailed_snoc.mpr (.inl h))
    · rw [settle_conns]
      rcases firstReadFailed_snoc.mp hfirst with hbefore | ⟨_, _, heq, hop⟩
      · obtain ⟨d, t, hd, ht, hl⟩ := ho.leaked j hbefore
        have hj : j ≠ i := by
          rintro rfl
          exact hnot hbefore
        exact ⟨d, t, (setConn_ne n c' hj).trans hd, ht, hl⟩
      · cases heq
        exact ⟨c', s', setConn_self n i c', hs', hleaked hop⟩

theorem Steps.owned {st₀ : σ} (h : Steps P exec { state := st₀ } events n) : Owned events n := by
  induction h with
  | refl => exact .init st₀
  | tail h hnext ih => exact ih.next (h.inv (.init st₀)) hnext

/-- The sessions of a run are clean exactly if no read that `do_read` starts has failed. -/
theorem clean_iff {st₀ : σ} (h : Steps P exec { state := st₀ } events n) :
    (∀ i c, n.conns i = some c → c.Clean P exec n.state) ↔ ∀ i, ¬ FirstReadFailed i events := by
  constructor
  · intro hclean i hfirst
    obtain ⟨c, s, hc, hs, hpending, block, howns⟩ := h.owned.leaked i hfirst
    have hlive := (howns block).mpr (List.mem_singleton_self block)
    cases ((hclean i c hc).destroyed s hs hpending block).mp hlive
  · intro hfirst i c hc
    exact Conn.clean_of_owned ((h.inv (.init st₀)).conns i c hc)
      (fun s hs => h.owned.kept i c s hc hs (hfirst i)) n.state

/-- A client that closes after the first byte of a payload of two. -/
theorem clean_of_close_in_payload : ∃ events n,
    Steps ⟨.little, 0⟩ execJson { state := ⟨[plainConfig], emptyRocks⟩ } events n ∧
      (n.conns 0).isSome ∧ ∀ i c, n.conns i = some c → c.Clean ⟨.little, 0⟩ execJson n.state := by
  have hsteps : ∃ n, Steps ⟨.little, 0⟩ execJson { state := ⟨[plainConfig], emptyRocks⟩ }
      ([] ++ [.connect 0] ++ [.accept 0] ++ [.deliver 0 (2 :: 0 :: 0 :: 0 :: ascii "A")] ++
        [.complete 0 .header (some 4)] ++ [.complete 0 (.readSome ⟨0, 0⟩ 2 .doRead) (some 1)] ++
        [.close 0] ++ [.complete 0 (.readSome ⟨0, 1⟩ 1 (.readRest ⟨0, 1⟩ 1)) none]) n ∧
      (n.conns 0).isSome :=
    ⟨_, .tail (.tail (.tail (.tail (.tail (.tail (.tail .refl rfl) rfl) rfl) rfl) rfl) rfl) rfl, rfl⟩
  obtain ⟨n, hsteps, hconn⟩ := hsteps
  refine ⟨_, n, hsteps, hconn, (clean_iff hsteps).mpr fun i => ?_⟩
  rintro ⟨op, result, hmem, buffer, size, rfl, rfl⟩
  simp at hmem

/-- A client that closes after the header: the session ends and its buffer stays. -/
theorem leak_of_close_after_header : ∃ events n c s,
    Steps ⟨.little, 0⟩ execJson { state := ⟨[plainConfig], emptyRocks⟩ } events n ∧
      n.conns 0 = some c ∧ c.session = some s ∧ s.pending = [] ∧ ¬ s.heap.Owns [] ∧
      ¬ c.Clean ⟨.little, 0⟩ execJson n.state := by
  obtain ⟨events, n, c, s, hsteps, hc, hs, hpending, hlive⟩ : ∃ events n c s,
      Steps ⟨.little, 0⟩ execJson { state := ⟨[plainConfig], emptyRocks⟩ } events n ∧
      n.conns 0 = some c ∧ c.session = some s ∧ s.pending = [] ∧ (s.heap.blocks 0).isSome :=
    ⟨_, _, _, _, .tail (.tail (.tail (.tail (.tail (.tail .refl
      (e := .connect 0) rfl)
      (e := .accept 0) rfl)
      (e := .deliver 0 [2, 0, 0, 0]) rfl)
      (e := .complete 0 .header (some 4)) rfl)
      (e := .close 0) rfl)
      (e := .complete 0 (.readSome ⟨0, 0⟩ 2 .doRead) none) rfl, rfl, rfl, rfl, rfl⟩
  have howns : ¬ s.heap.Owns [] := fun howns => nomatch (howns 0).mp hlive
  exact ⟨events, n, c, s, hsteps, hc, hs, hpending, howns, fun h => howns (h.destroyed s hs hpending)⟩

end Net

end RocksdbService
