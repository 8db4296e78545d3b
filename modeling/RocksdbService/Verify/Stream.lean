import Mathlib.Logic.Relation
import RocksdbService.Verify.Sessions

/-! # The stream of a client

However the transport cuts what a client sends, the payloads that its session executes are those that
the stream decodes to: at any moment the first ones of them, and all of them once the session can do
no more without further bytes (`faithful_of_transport`). -/

namespace RocksdbService

open Outcome
open Relation (ReflTransGen)

namespace Conn

variable {σ : Type} {P : Platform} {exec : Bytes → σ → Outcome (Bytes × σ)} {c c' : Conn}

/-- The payloads that were passed to `exec_json`. -/
def requests (c : Conn) : List Bytes := c.calls.map Call.request

/-- The bytes that a session has taken off the stream for a frame it has not executed, and those it has
not taken, follow the frames it has executed. -/
inductive Inv (P : Platform) (c : Conn) : Prop
  | waiting (hsession : c.session = none) (hsent : c.sent = c.inbox) (hcalls : c.calls = [])
  | alive {s : Session} {taken : Bytes} (hsession : c.session = some s) (hphase : s.Phase P taken)
    (hsent : P.framing.Decodes c.sent c.requests (taken ++ c.inbox))
  | ended {s : Session} {taken : Bytes} (hsession : c.session = some s) (hpending : s.pending = [])
    (hsent : P.framing.Decodes c.sent c.requests (taken ++ c.inbox))

/-- The client has connected and sent nothing. -/
theorem Inv.connect : Inv P {} := .waiting rfl rfl rfl

theorem Inv.decodes (h : c.Inv P) : ∃ rest, P.framing.Decodes c.sent c.requests rest := by
  cases h with
  | waiting _ _ hcalls => exact ⟨c.sent, by rw [requests, hcalls]; exact .refl⟩
  | alive _ _ hsent => exact ⟨_, hsent⟩
  | ended _ _ hsent => exact ⟨_, hsent⟩

theorem Inv.start (h : c.Inv P) (hsession : c.session = none) : c.start.Inv P := by
  cases h with
  | waiting _ hsent hcalls =>
    refine .alive rfl (.header rfl) ?_
    rw [requests, Conn.start, hcalls, hsent]
    exact .refl
  | alive hs => rw [hsession] at hs; cases hs
  | ended hs => rw [hsession] at hs; cases hs

theorem Inv.deliver (h : c.Inv P) (bs : Bytes) :
    Inv P { c with inbox := c.inbox ++ bs, sent := c.sent ++ bs } := by
  cases h with
  | waiting hsession hsent hcalls => exact .waiting hsession (by rw [hsent]) hcalls
  | alive hsession hphase hsent =>
    refine .alive hsession hphase ?_
    rw [← List.append_assoc]
    exact hsent.append bs
  | @ended s taken hsession hpending hsent =>
    refine @Inv.ended P _ s taken hsession hpending ?_
    rw [← List.append_assoc]
    exact hsent.append bs

theorem Inv.close (h : c.Inv P) : Inv P { c with closed := true } := by
  cases h with
  | waiting hsession hsent hcalls => exact .waiting hsession hsent hcalls
  | alive hsession hphase hsent => exact .alive hsession hphase hsent
  | ended hsession hpending hsent => exact .ended hsession hpending hsent

/-- Only a session in one of its phases completes something. -/
theorem Inv.of_complete (h : c.Inv P) {st : σ} {op : Pending} {result : Option Nat}
    {r : Outcome (Conn × σ × Option Call)} (hr : c.complete P exec st op result = some r) :
    ∃ s taken, c.session = some s ∧ s.Phase P taken ∧
      P.framing.Decodes c.sent c.requests (taken ++ c.inbox) := by
  cases h with
  | waiting hsession => simp [Conn.complete, hsession] at hr
  | alive hsession hphase hsent => exact ⟨_, _, hsession, hphase, hsent⟩
  | ended hsession hpending => rw [complete_ended hsession hpending] at hr; cases hr

variable (P exec) in
/-- What a completion without fault leaves as it is, and the call it may have made. -/
structure Effect (c : Conn) (st : σ) (c' : Conn) (st' : σ) (call : Option Call) : Prop where
  sent : c'.sent = c.sent
  closed : c'.closed = c.closed
  session : c'.session.isSome = true
  calls : c'.calls = c.calls ++ call.toList
  quiet : call = none → st' = st
  executed : ∀ k, call = some k →
    exec k.request st = .ok (k.reply, st') ∧ k.frame = Session.frameOf P.endian k.reply ∧
      ∃ s, c'.session = some s ∧ s.pending = [.write k.frame]

theorem Inv.complete (h : c.Inv P) {st st' : σ} {op : Pending} {result : Option Nat}
    {call : Option Call} (hr : c.complete P exec st op result = some (.ok (c', st', call))) :
    c'.Inv P ∧ Effect P exec c st c' st' call := by
  obtain ⟨s, _, hsession, hphase, hsent⟩ := h.of_complete hr
  have hquiet : ∀ {s' : Session} {inbox : Bytes},
      Effect P exec c st { c with session := some s', inbox } st none := fun {s' inbox} =>
    ⟨rfl, rfl, rfl, (List.append_nil _).symm, fun _ => rfl, fun k hk => by cases hk⟩
  generalize hrr : (Except.ok (c', st', call) : Outcome _) = r at hr
  cases complete_cases hsession hphase hr with
  | header htaken hlen hp =>
    cases hrr
    refine ⟨.alive rfl hp ?_, hquiet⟩
    rw [List.take_append_drop]
    subst htaken
    exact hsent
  | refused htaken hlen hsize hp =>
    cases hrr
    refine ⟨@Inv.ended P _ _ (c.inbox.take size32) rfl hp ?_, hquiet⟩
    rw [List.take_append_drop]
    subst htaken
    exact hsent
  | headerFailed htaken hp => cases hrr; exact ⟨.ended rfl hp hsent, hquiet⟩
  | chunk hpos hn htaken hp =>
    cases hrr
    refine ⟨.alive rfl hp ?_, hquiet⟩
    rw [List.append_assoc, List.take_append_drop]
    exact hsent
  | @executed payload s' buffer size n handler hn hmax hframe hp hwrite =>
    obtain ⟨⟨out, st₁⟩, hexec, hrr⟩ := bind_eq_ok.mp hrr.symm
    dsimp only at hrr
    split at hrr
    · cases hrr
      refine ⟨.alive rfl (hp out) ?_, rfl, rfl, rfl, rfl, (fun hk => by cases hk), fun k hk => ?_⟩
      · simpa [requests] using hsent.snoc hframe
      · cases hk
        exact ⟨hexec, rfl, _, rfl, hwrite out⟩
    · cases hrr
  | payloadFailed hp => cases hrr; exact ⟨.ended rfl hp hsent, hquiet⟩
  | written htaken hp =>
    cases hrr
    subst htaken
    exact ⟨.alive rfl (.header hp) hsent, hquiet⟩
  | writeFailed hp => cases hrr; exact ⟨.ended rfl hp hsent, hquiet⟩

/-! ## One session -/

/-- A read for which the client has not sent enough. -/
def Starved (inbox : Bytes) : Pending → Prop
  | .header => inbox.length < size32
  | .readSome _ size _ => inbox = [] ∧ size ≠ 0
  | .write _ => False

variable (P exec) in
/-- What happens to a connection whose handlers return and whose replies are written: a read fails only
at the end of what a client has sent that has closed. -/
inductive Transport : Conn × σ → Conn × σ → Prop
  | deliver {c : Conn} {st : σ} (bs : Bytes) (hopen : c.closed = false) :
    Transport (c, st) ({ c with inbox := c.inbox ++ bs, sent := c.sent ++ bs }, st)
  | close {c : Conn} {st : σ} : Transport (c, st) ({ c with closed := true }, st)
  | complete {c c' : Conn} {st st' : σ} {call : Option Call} (op : Pending) (n : Nat)
    (h : c.complete P exec st op (some n) = some (.ok (c', st', call))) :
    Transport (c, st) (c', st')
  | eof {c c' : Conn} {st st' : σ} {call : Option Call} (op : Pending)
    (hclosed : c.closed = true) (hstarved : Starved c.inbox op)
    (h : c.complete P exec st op none = some (.ok (c', st', call))) : Transport (c, st) (c', st')

variable (P exec) in
/-- `exec_json` returns, and `do_write` has room for the reply. -/
def Served (st : σ) (payload : Bytes) : Prop :=
  ∃ out st', exec payload st = .ok (out, st') ∧ out.length % 2 ^ 32 ≤ payload.length + P.slack

variable (P exec) in
/-- Nothing can complete until the client sends more. -/
def AtRest (c : Conn) (st : σ) : Prop := ∀ op n, c.complete P exec st op (some n) = none

/-- The session will execute nothing more, and the stream has nothing more to execute. -/
def Spent (P : Platform) (c : Conn) : Prop :=
  c.closed = true ∧ P.framing.decode c.sent = c.requests ∨
    ∀ bs, P.framing.decode (c.sent ++ bs) = c.requests

/-- How far an operation is from the next header. -/
def stage : Pending → Nat
  | .readSome _ _ _ => 2
  | .write _ => 1
  | .header => 0

/-- A bound on the completions that can follow without further bytes. -/
def work (c : Conn) : Nat :=
  3 * c.inbox.length + ((c.session.bind (·.pending.head?)).map stage).getD 0

/-- An ended session has nothing left to execute. -/
def EndsSpent (P : Platform) (c : Conn) : Prop :=
  ∀ s, c.session = some s → s.pending = [] → c.Spent P

theorem Spent.decode {c : Conn} (h : c.Spent P) : P.framing.decode c.sent = c.requests := by
  rcases h with ⟨-, h⟩ | h
  · exact h
  · rw [← h [], List.append_nil]

theorem EndsSpent.complete (h : c.Inv P) {st st' : σ} {op : Pending} {result : Option Nat}
    {call : Option Call} (hresult : result = none → c.closed = true ∧ Starved c.inbox op)
    (hr : c.complete P exec st op result = some (.ok (c', st', call))) : c'.EndsSpent P := by
  have halive : ∀ {s : Session} {taken : Bytes}, c'.session = some s → s.Phase P taken →
      c'.EndsSpent P := by
    intro s taken hs hp s' hs' hpending
    cases hs.symm.trans hs'
    exact absurd hpending (hp.pending_ne_nil)
  obtain ⟨_, _, hsession, hphase, hsent⟩ := h.of_complete hr
  generalize hrr : (Except.ok (c', st', call) : Outcome _) = r at hr
  cases complete_cases hsession hphase hr with
  | header htaken hlen hp => cases hrr; exact halive rfl hp
  | refused htaken hlen hsize hp =>
    cases hrr
    subst htaken
    refine fun _ _ _ => .inr fun bs => ?_
    refine (hsent.append bs).decode_eq_of_none ?_
    rw [List.nil_append, ← List.take_append_drop size32 c.inbox, List.append_assoc]
    exact Framing.next?_refused (by rw [List.length_take, Nat.min_eq_left hlen]; rfl) hsize _
  | headerFailed htaken hp =>
    cases hrr
    subst htaken
    obtain ⟨hclosed, hstarved⟩ := hresult rfl
    exact fun _ _ _ => .inl ⟨hclosed, hsent.decode_eq_of_none (Framing.next?_short hstarved)⟩
  | chunk hpos hn htaken hp => cases hrr; exact halive rfl hp
  | executed hn hmax hframe hp hwrite =>
    obtain ⟨⟨out, st₁⟩, hexec, hrr⟩ := bind_eq_ok.mp hrr.symm
    dsimp only at hrr
    split at hrr
    · cases hrr; exact halive rfl (hp out)
    · cases hrr
  | payloadFailed hp =>
    cases hrr
    obtain ⟨hclosed, hinbox, hsize⟩ := hresult rfl
    refine fun _ _ _ => .inl ⟨hclosed, hsent.decode_eq_of_none ?_⟩
    rw [hinbox, List.append_nil]
    refine hphase.next?_taken fun buffer handler hp => hsize ?_
    cases (complete_pending hsession hphase hr).symm.trans hp
    rfl
  | written htaken hp => cases hrr; exact halive rfl (.header (P := P) hp)
  | writeFailed hp => exact absurd (hresult rfl).2 id

/-- A session at rest has no complete frame before it. -/
theorem AtRest.next?_eq_none {s : Session} {taken : Bytes} {st : σ} (hrest : c.AtRest P exec st)
    (hs : c.session = some s) (hphase : s.Phase P taken) :
    P.framing.next? (taken ++ c.inbox) = none := by
  obtain ⟨op, hp⟩ := hphase.pending_eq
  have hop : op ∈ s.pending := by rw [hp]; exact List.mem_singleton.mpr rfl
  cases op with
  | header =>
    have hlt : c.inbox.length < size32 := by
      by_contra hge
      have := hrest .header 0
      simp only [Conn.complete, hs, hop, not_true_eq_false, if_false, if_pos (Nat.not_lt.mp hge)] at this
      cases this
    cases hphase with
    | header => exact Framing.next?_short hlt
    | payload hp' => cases hp.symm.trans hp'
    | writing hp' => cases hp.symm.trans hp'
  | readSome buffer size handler =>
    have hread : ∀ n, ¬ (n ≤ size ∧ n ≤ c.inbox.length ∧ (n = 0 → size = 0)) := by
      intro n hn
      have := hrest (.readSome buffer size handler) n
      simp only [Conn.complete, hs, hop, not_true_eq_false, if_false, if_pos hn] at this
      cases this
    have hsize : size ≠ 0 := fun h => hread 0 ⟨Nat.zero_le _, Nat.zero_le _, fun _ => h⟩
    have hinbox : c.inbox = [] := by
      by_contra hne
      exact hread 1 ⟨Nat.one_le_iff_ne_zero.mpr hsize, List.length_pos_iff.mpr hne, fun h => by cases h⟩
    rw [hinbox, List.append_nil]
    refine hphase.next?_taken fun buffer' handler' hp' => ?_
    cases hp.symm.trans hp'
    exact hsize rfl
  | write frame =>
    have := hrest (.write frame) 0
    simp only [Conn.complete, hs, hop, not_true_eq_false, if_false] at this
    cases this

theorem work_eq {s : Session} {op : Pending} (hs : c.session = some s) (hp : s.pending = [op]) :
    c.work = 3 * c.inbox.length + stage op := by
  unfold work
  rw [hs, Option.bind_some, hp]
  rfl

theorem work_ended {s : Session} (hs : c.session = some s) (hp : s.pending = []) :
    c.work = 3 * c.inbox.length := by
  unfold work
  rw [hs, Option.bind_some, hp]
  rfl

/-- Every completion uses up bytes or comes nearer to the next header. -/
theorem work_lt {st st' : σ} {op : Pending} {n : Nat} {call : Option Call} (h : c.Inv P)
    (hr : c.complete P exec st op (some n) = some (.ok (c', st', call))) : c'.work < c.work := by
  obtain ⟨s, taken, hsession, hphase, -⟩ := h.of_complete hr
  rw [work_eq hsession (complete_pending hsession hphase hr)]
  have hsize : size32 = 4 := rfl
  have hle : ∀ {s' : Session} {taken' : Bytes} (inbox : Bytes), s'.Phase P taken' →
      work { c with session := some s', inbox } ≤ 3 * inbox.length + 2 := by
    intro s' taken' inbox hp
    obtain ⟨op', hop'⟩ := hp.pending_eq
    rw [work_eq rfl hop']
    cases op' <;> simp [stage]
  generalize hrr : (Except.ok (c', st', call) : Outcome _) = r at hr
  cases complete_cases hsession hphase hr with
  | header htaken hlen hp =>
    cases hrr
    have := hle (c.inbox.drop size32) hp
    simp only [List.length_drop, stage] at this ⊢
    omega
  | refused htaken hlen hs hp =>
    cases hrr
    rw [work_ended rfl hp]
    simp only [List.length_drop, stage]
    omega
  | @chunk s' buffer size n handler hpos hn htaken hp =>
    cases hrr
    have := hle (c.inbox.drop n) hp
    simp only [List.length_drop, stage] at this ⊢
    omega
  | executed hn hmax hframe hp hwrite =>
    obtain ⟨⟨out, st₁⟩, hexec, hrr⟩ := bind_eq_ok.mp hrr.symm
    dsimp only at hrr
    split at hrr
    · cases hrr
      rw [work_eq rfl (hwrite out)]
      simp only [List.length_drop, stage]
      omega
    · cases hrr
  | written htaken hp =>
    cases hrr
    rw [work_eq rfl hp]
    simp [stage]

/-- A handler faults only as `exec_json` does, or because the reply has no room. -/
theorem complete_fault {st : σ} {op : Pending} {result : Option Nat} {f : Fault} (h : c.Inv P)
    (hr : c.complete P exec st op result = some (.error f)) :
    ∃ payload, c.requests ++ [payload] <+: P.framing.decode c.sent ∧ ¬ Served P exec st payload := by
  obtain ⟨s, _, hsession, hphase, hsent⟩ := h.of_complete hr
  generalize hrr : (Except.error f : Outcome (Conn × σ × Option Call)) = r at hr
  cases complete_cases hsession hphase hr with
  | @executed payload s' buffer size n handler hn hmax hframe hp hwrite =>
    refine ⟨payload, (hsent.snoc hframe).isPrefix, ?_⟩
    rintro ⟨out, st', hexec, hle⟩
    rw [hexec, ok_bind] at hrr
    dsimp only at hrr
    rw [if_pos hle] at hrr
    cases hrr
  | _ => cases hrr

variable (P exec) in
/-- What a client's stream and its session agree on. -/
structure Faithful (c : Conn) (st : σ) : Prop where
  /-- What has been executed is the beginning of what the stream decodes to. -/
  executed : c.requests <+: P.framing.decode c.sent
  /-- At rest everything has been executed. -/
  complete : c.AtRest P exec st → c.requests = P.framing.decode c.sent
  /-- Rest is reached: every completion comes nearer to it. -/
  progress : ∀ op n c' st' call, c.complete P exec st op (some n) = some (.ok (c', st', call)) →
    c'.work < c.work
  /-- A completion faults only as `exec_json` does on the next payload, or for lack of room for its
  reply. -/
  fault : ∀ op n f, c.complete P exec st op (some n) = some (.error f) →
    ∃ payload, c.requests ++ [payload] <+: P.framing.decode c.sent ∧ ¬ Served P exec st payload
  /-- While a payload is read, the buffer holds what has come of it, the read in progress is for the
  rest, behind it, and the unread bytes follow. -/
  buffer : ∀ s buffer size handler, c.session = some s →
    s.pending = [.readSome buffer size handler] →
    ∃ base header got, s.inpData = some base ∧ buffer = base.add got.length ∧
      got.length + size = s.length ∧ s.heap.blocks base.block = some (filled got s.length) ∧
      (handler = .doRead ∨ handler = .readRest buffer size) ∧
      P.endian.decode32 header = s.length ∧
      P.framing.Decodes c.sent c.requests (header ++ got ++ c.inbox)

theorem Inv.buffer (h : c.Inv P) {s : Session} {buffer : Ptr} {size : Nat} {handler : ReadHandler}
    (hs : c.session = some s) (hpending : s.pending = [.readSome buffer size handler]) :
    ∃ base header got, s.inpData = some base ∧ buffer = base.add got.length ∧
      got.length + size = s.length ∧ s.heap.blocks base.block = some (filled got s.length) ∧
      (handler = .doRead ∨ handler = .readRest buffer size) ∧
      P.endian.decode32 header = s.length ∧
      P.framing.Decodes c.sent c.requests (header ++ got ++ c.inbox) := by
  cases h with
  | waiting hsession => rw [hs] at hsession; cases hsession
  | ended hsession hp => cases hs.symm.trans hsession; rw [hp] at hpending; cases hpending
  | alive hsession hphase hsent =>
    cases hs.symm.trans hsession
    cases hphase with
    | header hp => rw [hp] at hpending; cases hpending
    | writing hp => rw [hp] at hpending; cases hpending
    | @payload block header got handler' hp hinp hblock hfilled hheader hlength hmax hgot hhandler =>
      cases hpending.symm.trans hp
      refine ⟨⟨block, 0⟩, header, got, hinp, ?_, ?_, hfilled, ?_, hlength, hsent⟩
      · simp [Ptr.add]
      · rcases hgot with rfl | hlt
        · simp
        · omega
      · rcases hhandler with ⟨rfl, -⟩ | rfl
        · exact .inl rfl
        · exact .inr rfl

/-- Whatever chunks the transport makes of what a client sends, its session executes what the stream
decodes to. -/
theorem faithful_of_transport {st₀ st : σ}
    (h : ReflTransGen (Transport P exec) (({} : Conn).start, st₀) (c, st)) :
    c.Faithful P exec st := by
  have hinv : ∀ {p : Conn × σ}, ReflTransGen (Transport P exec) (({} : Conn).start, st₀) p →
      p.1.Inv P ∧ p.1.EndsSpent P ∧ p.1.session.isSome := by
    intro p h
    induction h with
    | refl =>
      refine ⟨Inv.connect.start rfl, fun s hs hp => ?_, rfl⟩
      cases hs
      cases hp
    | tail _ hstep ih =>
      obtain ⟨hi, hends, hsome⟩ := ih
      cases hstep with
      | deliver bs hopen =>
        refine ⟨hi.deliver bs, fun s hs hp => ?_, hsome⟩
        rcases hends s hs hp with ⟨hclosed, -⟩ | hspent
        · rw [hopen] at hclosed; cases hclosed
        · exact .inr fun bs' => by
            have := hspent (bs ++ bs')
            rwa [← List.append_assoc] at this
      | close =>
        refine ⟨hi.close, fun s hs hp => ?_, hsome⟩
        exact (hends s hs hp).imp (fun h => ⟨rfl, h.2⟩) id
      | complete op n h =>
        obtain ⟨hi', E⟩ := hi.complete h
        refine ⟨hi', EndsSpent.complete hi (fun hn => ?_) h, E.session⟩
        cases hn
      | eof op hclosed hstarved h =>
        obtain ⟨hi', E⟩ := hi.complete h
        exact ⟨hi', EndsSpent.complete hi (fun _ => ⟨hclosed, hstarved⟩) h, E.session⟩
  obtain ⟨hi, hends, hsome⟩ := hinv h
  obtain ⟨rest, hdecodes⟩ := hi.decodes
  refine ⟨hdecodes.isPrefix, fun hrest => ?_, fun op n c' st' call => work_lt hi,
    fun op n f => complete_fault hi, fun s buffer size handler => hi.buffer⟩
  cases hi with
  | waiting hsession => rw [hsession] at hsome; cases hsome
  | alive hsession hphase hsent =>
    exact (hsent.decode_eq_of_none (hrest.next?_eq_none hsession hphase)).symm
  | ended hsession hp => exact (hends _ hsession hp).decode.symm

/-- A payload that comes in two chunks to a service that answers with the request. -/
theorem faithful_two_chunks : ∃ c : Conn, c.requests = [ascii "AB"] ∧
    c.Faithful ⟨.little, 0⟩ (fun request st => .ok (request, st)) () :=
  ⟨_, rfl, faithful_of_transport <|
    .tail (.tail (.tail (.tail (.tail .refl
      (.deliver (2 :: 0 :: 0 :: 0 :: ascii "A") rfl))
      (.complete .header 4 rfl))
      (.complete (.readSome ⟨0, 0⟩ 2 .doRead) 1 rfl))
      (.deliver (ascii "B") rfl))
      (.complete (.readSome ⟨0, 1⟩ 1 (.readRest ⟨0, 1⟩ 1)) 1 rfl)⟩

end Conn

end RocksdbService
