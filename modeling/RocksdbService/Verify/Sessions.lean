import RocksdbService.Service.Network
import RocksdbService.Theory.Framing
import RocksdbService.Verify.Buffers

/-! # The phases of a session

A session waits for one operation at a time: for a header, for more bytes of a payload, or for its
reply to be written. `Session.Phase` says for each phase what the members of the session and its
buffers hold, and which bytes it has taken off the stream that belong to no executed frame. The
completion handlers go from phase to phase (`Conn.Inv.complete`). -/

namespace RocksdbService

open Outcome

theorem size32_pos : 0 < size32 := by decide

/-- A frame as `do_read` takes it. -/
def Platform.framing (P : Platform) : Framing Byte where
  header := size32
  size header :=
    if P.endian.decode32 header > maxLength then none else some (P.endian.decode32 header)
  header_pos := size32_pos

namespace Session

variable {σ : Type} {P : Platform} {exec : Bytes → σ → Outcome (Bytes × σ)} {s : Session}

/-- The session is alive, and has taken these bytes of a frame that it has not executed. -/
inductive Phase (P : Platform) (s : Session) : Bytes → Prop
  | header (hpending : s.pending = [.header]) : Phase P s []
  /-- `buffer - inp_data_` bytes of the payload are in the buffer, `length` are to come. -/
  | payload {block : Nat} {header got : Bytes} {handler : ReadHandler}
    (hpending : s.pending = [.readSome ⟨block, got.length⟩ (s.length - got.length) handler])
    (hinp : s.inpData = some ⟨block, 0⟩) (hblock : block < s.heap.next)
    (hfilled : s.heap.blocks block = some (filled got s.length))
    (hheader : header.length = size32) (hlength : P.endian.decode32 header = s.length)
    (hmax : s.length ≤ maxLength) (hgot : got = [] ∨ got.length < s.length)
    (hhandler : handler = .doRead ∧ got = [] ∨
      handler = .readRest ⟨block, got.length⟩ (s.length - got.length)) : Phase P s (header ++ got)
  | writing {inp out : Nat} {frame : Bytes} (hpending : s.pending = [.write frame])
    (hinp : s.inpData = some ⟨inp, 0⟩) (hout : s.outData = some ⟨out, 0⟩) (hne : inp ≠ out)
    (hinpLive : (s.heap.blocks inp).isSome) (houtLive : (s.heap.blocks out).isSome) : Phase P s []

/-- One operation is outstanding. -/
theorem Phase.pending_eq {taken : Bytes} (h : s.Phase P taken) : ∃ op, s.pending = [op] := by
  cases h with
  | header hp => exact ⟨_, hp⟩
  | payload hp => exact ⟨_, hp⟩
  | writing hp => exact ⟨_, hp⟩

theorem Phase.pending_ne_nil {taken : Bytes} (h : s.Phase P taken) : s.pending ≠ [] := by
  obtain ⟨op, hp⟩ := h.pending_eq
  rw [hp]
  exact nofun

/-- A session that has taken bytes waits for more. -/
theorem Phase.pending_of_taken {taken : Bytes} (h : s.Phase P taken) (hne : taken ≠ []) :
    ∃ buffer size handler, s.pending = [.readSome buffer size handler] := by
  cases h with
  | header => exact absurd rfl hne
  | payload hp => exact ⟨_, _, _, hp⟩
  | writing => exact absurd rfl hne

/-- What a session has taken is no complete frame, unless a read of no bytes completes it. -/
theorem Phase.next?_taken {taken : Bytes} (h : s.Phase P taken)
    (hsize : ∀ buffer handler, s.pending ≠ [.readSome buffer 0 handler]) :
    P.framing.next? taken = none := by
  cases h with
  | header => exact Framing.next?_short P.framing.header_pos
  | @payload block header got handler hp _ _ _ hheader hlength hmax =>
    have hlt : got.length < s.length := by
      by_contra hge
      rw [Nat.sub_eq_zero_of_le (Nat.not_lt.mp hge)] at hp
      exact hsize _ _ hp
    refine Framing.next?_incomplete hheader ?_ hlt
    simp only [Platform.framing, hlength]
    exact if_neg (Nat.not_lt.mpr hmax)
  | writing => exact Framing.next?_short P.framing.header_pos

theorem free_block {h : Heap} {b : Nat} (hb : (h.blocks b).isSome) :
    h.free (some ⟨b, 0⟩) = .ok (h.setBlock b none) := by
  simp [Heap.free, hb]

/-- A header has come. -/
theorem headerRead_some (hpending : s.pending = []) {header : Bytes}
    (hheader : header.length = size32) :
    (P.framing.size header = none ∧ (s.headerRead P (some header)).pending = []) ∨
      (s.headerRead P (some header)).Phase P header := by
  unfold headerRead
  dsimp only
  generalize hn : P.endian.decode32 header = n
  split
  · next hgt =>
    refine .inl ⟨?_, hpending⟩
    simp only [Platform.framing, hn]
    exact if_pos hgt
  · next hle =>
    refine .inr ?_
    rw [← List.append_nil header]
    refine @Phase.payload P _ s.heap.next header [] .doRead ?_ rfl (Nat.lt_succ_self _) ?_ hheader hn
      (Nat.not_lt.mp hle) (.inl rfl) (.inl ⟨rfl, rfl⟩)
    · simp [await, hpending, Heap.alloc]
    · simp [await, Heap.alloc, filled]

variable (P exec) in
/-- Some bytes of the payload have come, but not all. -/
theorem readHandler_rest {block : Nat} {header got chunk : Bytes} {handler : ReadHandler} (st : σ)
    (hpending : s.pending = []) (hinp : s.inpData = some ⟨block, 0⟩) (hblock : block < s.heap.next)
    (hfilled : s.heap.blocks block = some (filled (got ++ chunk) s.length))
    (hheader : header.length = size32) (hlength : P.endian.decode32 header = s.length)
    (hmax : s.length ≤ maxLength)
    (hhandler : handler = .doRead ∧ got = [] ∨
      handler = .readRest ⟨block, got.length⟩ (s.length - got.length))
    (hlt : (got ++ chunk).length < s.length) :
    ∃ s', s.readHandler P exec st handler (some chunk.length) = .ok { session := s', state := st } ∧
      s'.Phase P (header ++ (got ++ chunk)) := by
  have hrest : ∀ (buffer : Ptr) (length : Nat), buffer = ⟨block, got.length + chunk.length⟩ →
      length = s.length - (got.length + chunk.length) →
      (s.readRest buffer length).Phase P (header ++ (got ++ chunk)) := by
    rintro _ _ rfl rfl
    rw [← List.length_append]
    refine @Phase.payload P _ block header (got ++ chunk)
      (.readRest ⟨block, (got ++ chunk).length⟩ (s.length - (got ++ chunk).length))
      ?_ hinp hblock hfilled hheader hlength hmax (.inr hlt) (.inr rfl)
    simp [readRest, await, hpending]
  rw [List.length_append] at hlt
  rcases hhandler with ⟨rfl, rfl⟩ | rfl
  · rw [List.length_nil, Nat.zero_add] at hlt
    refine ⟨_, ?_, hrest (Ptr.add ⟨block, 0⟩ chunk.length) (s.length - chunk.length) ?_ ?_⟩
    · rw [readHandler, if_pos hlt, hinp]
      rfl
    · simp [Ptr.add]
    · simp
  · refine ⟨_, ?_, hrest (Ptr.add ⟨block, got.length⟩ chunk.length)
      (s.length - got.length - chunk.length) ?_ ?_⟩
    · rw [readHandler, if_pos (by omega)]
      rfl
    · simp [Ptr.add]
    · omega

variable (P exec) in
/-- The whole payload has come. -/
theorem readHandler_last {block : Nat} {got chunk : Bytes} {handler : ReadHandler} (st : σ)
    (hhandler : handler = .doRead ∧ got = [] ∨
      handler = .readRest ⟨block, got.length⟩ (s.length - got.length))
    (heq : (got ++ chunk).length = s.length) :
    s.readHandler P exec st handler (some chunk.length) =
      s.doWrite P exec st (got ++ chunk).length := by
  rw [List.length_append] at heq
  rcases hhandler with ⟨rfl, rfl⟩ | rfl
  · rw [List.length_nil, Nat.zero_add] at heq
    rw [readHandler, if_neg (by omega), List.nil_append, heq]
  · rw [readHandler, if_neg (by omega), List.length_append, heq]

variable (P exec) in
/-- A read of the payload has failed. -/
theorem readHandler_none {block : Nat} {got : Bytes} {handler : ReadHandler} (st : σ)
    (hpending : s.pending = []) (hinp : s.inpData = some ⟨block, 0⟩)
    (hlive : (s.heap.blocks block).isSome)
    (hhandler : handler = .doRead ∧ got = [] ∨
      handler = .readRest ⟨block, got.length⟩ (s.length - got.length)) :
    ∃ s', s.readHandler P exec st handler none = .ok { session := s', state := st } ∧
      s'.pending = [] := by
  rcases hhandler with ⟨rfl, -⟩ | rfl
  · exact ⟨s, rfl, hpending⟩
  · refine ⟨{ s with heap := s.heap.setBlock block none }, ?_, hpending⟩
    rw [readHandler, hinp, free_block hlive]
    rfl

/-- A reply has been written, or has failed to be: the buffers are deleted. -/
theorem writeHandler_eq {inp out : Nat} (hinp : s.inpData = some ⟨inp, 0⟩)
    (hout : s.outData = some ⟨out, 0⟩) (hne : inp ≠ out) (hinpLive : (s.heap.blocks inp).isSome)
    (houtLive : (s.heap.blocks out).isSome) :
    ∃ heap, ∀ success, s.writeHandler success =
      .ok (if success then doRead { s with heap } else { s with heap }) := by
  have hfree : ((s.heap.setBlock inp none).blocks out).isSome := by
    rw [Heap.setBlock_blocks, if_neg hne.symm]
    exact houtLive
  refine ⟨(s.heap.setBlock inp none).setBlock out none, fun success => ?_⟩
  rw [writeHandler, hinp, free_block hinpLive, ok_bind, hout, free_block hfree, ok_bind]
  rfl

/-- After `do_write` the session waits for its reply to be written. -/
theorem withReply_phase {payload bytes frame : Bytes} {n : Nat} (hs : s.Holds payload)
    (hpending : s.pending = []) :
    ((s.withReply bytes n).await (.write frame)).Phase P [] := by
  obtain ⟨block, hinp, hblock, hfilled⟩ := hs
  refine @Phase.writing P _ block s.heap.next frame ?_ hinp rfl hblock.ne ?_ ?_
  · simp [withReply, await, hpending]
  · simp [withReply, await, hblock.ne, hfilled]
  · simp [withReply, await]

end Session

namespace Conn

variable {σ : Type} {P : Platform} {exec : Bytes → σ → Outcome (Bytes × σ)} {c : Conn} {s : Session}

variable (P exec) in
/-- What the completion of an operation comes to on a connection whose session has taken `taken`. -/
inductive Completion (c : Conn) (st : σ) (taken : Bytes) :
    Pending → Option Nat → Outcome (Conn × σ × Option Call) → Prop
  | header {s' : Session} {n : Nat} (htaken : taken = []) (hlen : size32 ≤ c.inbox.length)
    (hphase : s'.Phase P (c.inbox.take size32)) :
    Completion c st taken .header (some n)
      (.ok ({ c with session := some s', inbox := c.inbox.drop size32 }, st, none))
  | refused {s' : Session} {n : Nat} (htaken : taken = []) (hlen : size32 ≤ c.inbox.length)
    (hsize : P.framing.size (c.inbox.take size32) = none) (hpending : s'.pending = []) :
    Completion c st taken .header (some n)
      (.ok ({ c with session := some s', inbox := c.inbox.drop size32 }, st, none))
  | headerFailed {s' : Session} (htaken : taken = []) (hpending : s'.pending = []) :
    Completion c st taken .header none (.ok ({ c with session := some s' }, st, none))
  | chunk {s' : Session} {buffer : Ptr} {size n : Nat} {handler : ReadHandler} (hpos : 0 < n)
    (hn : n ≤ c.inbox.length) (htaken : taken ≠ [])
    (hphase : s'.Phase P (taken ++ c.inbox.take n)) :
    Completion c st taken (.readSome buffer size handler) (some n)
      (.ok ({ c with session := some s', inbox := c.inbox.drop n }, st, none))
  | executed {payload : Bytes} {s' : Bytes → Session} {buffer : Ptr} {size n : Nat}
    {handler : ReadHandler} (hn : n ≤ c.inbox.length) (hmax : payload.length ≤ maxLength)
    (hframe : P.framing.next? (taken ++ c.inbox) = some (payload, c.inbox.drop n))
    (hphase : ∀ out, (s' out).Phase P [])
    (hpending : ∀ out, (s' out).pending = [.write (Session.frameOf P.endian out)]) :
    Completion c st taken (.readSome buffer size handler) (some n) (do
      let (out, st) ← exec payload st
      if out.length % 2 ^ 32 ≤ payload.length + P.slack then
        return ({ c with
          session := some (s' out)
          inbox := c.inbox.drop n
          calls := c.calls ++ [⟨payload, out, Session.frameOf P.endian out⟩] }, st,
          some ⟨payload, out, Session.frameOf P.endian out⟩)
      else throw .undefined)
  | payloadFailed {s' : Session} {buffer : Ptr} {size : Nat} {handler : ReadHandler}
    (hpending : s'.pending = []) :
    Completion c st taken (.readSome buffer size handler) none
      (.ok ({ c with session := some s' }, st, none))
  | written {s' : Session} {frame : Bytes} {n : Nat} (htaken : taken = [])
    (hpending : s'.pending = [.header]) :
    Completion c st taken (.write frame) (some n) (.ok ({ c with session := some s' }, st, none))
  | writeFailed {s' : Session} {frame : Bytes} (hpending : s'.pending = []) :
    Completion c st taken (.write frame) none (.ok ({ c with session := some s' }, st, none))

theorem take_size32_ne_nil {inbox : Bytes} (hlen : size32 ≤ inbox.length) :
    inbox.take size32 ≠ [] := by
  intro h
  have := congrArg List.length h
  rw [List.length_take, Nat.min_eq_left hlen] at this
  cases this

theorem complete_header {st : σ} {result : Option Nat} {r : Outcome (Conn × σ × Option Call)}
    (hs : c.session = some s) (hpending : s.pending = [.header])
    (hr : c.complete P exec st .header result = some r) :
    Completion P exec c st [] .header result r := by
  have herase : s.pending.erase .header = [] := by simp [hpending]
  unfold complete at hr
  rw [hs] at hr
  simp only [hpending, List.mem_singleton, not_true_eq_false, if_false] at hr
  rw [← hpending, herase] at hr
  cases result with
  | some n =>
    dsimp only at hr
    split at hr
    · next hlen =>
      cases hr
      have hheader : (c.inbox.take size32).length = size32 := by
        rw [List.length_take, Nat.min_eq_left hlen]
      rcases Session.headerRead_some (P := P) (s := { s with pending := [] }) rfl hheader with
        ⟨hsize, hp⟩ | hphase
      · exact .refused rfl hlen hsize hp
      · exact .header rfl hlen hphase
    · cases hr
  | none =>
    cases hr
    exact .headerFailed rfl rfl

theorem complete_readSome {st : σ} {result : Option Nat} {r : Outcome (Conn × σ × Option Call)}
    {block : Nat} {header got : Bytes} {handler : ReadHandler} (hs : c.session = some s)
    (hpending : s.pending = [.readSome ⟨block, got.length⟩ (s.length - got.length) handler])
    (hinp : s.inpData = some ⟨block, 0⟩) (hblock : block < s.heap.next)
    (hfilled : s.heap.blocks block = some (filled got s.length))
    (hheader : header.length = size32) (hlength : P.endian.decode32 header = s.length)
    (hmax : s.length ≤ maxLength) (hgot : got = [] ∨ got.length < s.length)
    (hhandler : handler = .doRead ∧ got = [] ∨
      handler = .readRest ⟨block, got.length⟩ (s.length - got.length))
    (hr : c.complete P exec st (.readSome ⟨block, got.length⟩ (s.length - got.length) handler)
      result = some r) :
    Completion P exec c st (header ++ got)
      (.readSome ⟨block, got.length⟩ (s.length - got.length) handler) result r := by
  have herase : s.pending.erase (.readSome ⟨block, got.length⟩ (s.length - got.length) handler) =
      [] := by simp [hpending]
  have htaken : header ++ got ≠ [] := by
    have : 0 < header.length := by rw [hheader]; decide
    intro h
    rw [List.append_eq_nil_iff.mp h |>.1] at this
    cases this
  have hle : got.length ≤ s.length := by
    rcases hgot with rfl | h
    · exact Nat.zero_le _
    · exact h.le
  unfold complete at hr
  rw [hs] at hr
  simp only [hpending, List.mem_singleton, not_true_eq_false, if_false] at hr
  rw [← hpending, herase] at hr
  cases result with
  | none =>
    cases hr
    have hlive : (s.heap.blocks block).isSome := by rw [hfilled]; rfl
    obtain ⟨s', heq, hp⟩ := Session.readHandler_none P exec
      (s := { s with pending := [] }) st rfl hinp hlive hhandler
    rw [heq]
    exact .payloadFailed hp
  | some n =>
    dsimp only at hr
    split at hr
    case isFalse => cases hr
    next hn =>
    obtain ⟨hsize, hinbox, hzero⟩ := hn
    cases hr
    have hchunk : (c.inbox.take n).length = n := by
      rw [List.length_take, Nat.min_eq_left hinbox]
    generalize hc : c.inbox.take n = chunk at hchunk
    have hwrite : s.heap.write ⟨block, got.length⟩ chunk = _ :=
      Heap.write_filled hfilled (by omega)
    rw [hwrite, ok_bind]
    generalize hs₁ : ({ s with
      heap := s.heap.setBlock block (some (filled (got ++ chunk) s.length))
      pending := [] } : Session) = s₁
    have hlen₁ : s₁.length = s.length := by rw [← hs₁]
    have hpending₁ : s₁.pending = [] := by rw [← hs₁]
    have hinp₁ : s₁.inpData = some ⟨block, 0⟩ := by rw [← hs₁]; exact hinp
    have hblock₁ : block < s₁.heap.next := by rw [← hs₁]; exact hblock
    have hfilled₁ : s₁.heap.blocks block = some (filled (got ++ chunk) s₁.length) := by
      rw [← hs₁]; simp
    rw [← hlen₁] at hlength hmax hhandler
    by_cases hlt : (got ++ chunk).length < s₁.length
    · have hpos : 0 < n := by
        rcases Nat.eq_zero_or_pos n with h0 | hpos
        · have := hzero h0
          rw [List.length_append] at hlt
          omega
        · exact hpos
      obtain ⟨s', heq, hphase⟩ := Session.readHandler_rest P exec st hpending₁ hinp₁ hblock₁ hfilled₁
        hheader hlength hmax hhandler hlt
      rw [hchunk] at heq
      rw [heq, ok_bind]
      simp only [Option.toList, List.append_nil, pure_eq_ok]
      refine .chunk hpos hinbox htaken ?_
      rw [hc, List.append_assoc]
      exact hphase
    · have hall : (got ++ chunk).length = s₁.length := by
        rw [List.length_append, hchunk] at hlt ⊢
        omega
      have hholds : s₁.Holds (got ++ chunk) :=
        ⟨block, hinp₁, hblock₁, by rw [hfilled₁, ← hall, filled_self]⟩
      have hlast := Session.readHandler_last P exec st hhandler hall
      rw [hchunk] at hlast
      rw [hlast, Session.doWrite_eq hholds (hall ▸ hmax)]
      have hframe : P.framing.next? (header ++ got ++ c.inbox) = some (got ++ chunk, c.inbox.drop n) := by
        refine Framing.next?_eq_some.mpr ⟨header, hheader, ?_, ?_⟩
        · simp only [Platform.framing, hlength, ← hall]
          exact if_neg (Nat.not_lt.mpr (hall ▸ hmax))
        · have hin : c.inbox = chunk ++ c.inbox.drop n := by rw [← hc, List.take_append_drop]
          conv_lhs => rw [hin]
          simp only [List.append_assoc]
      have hexecuted : Completion P exec c st (header ++ got)
          (.readSome ⟨block, got.length⟩ (s.length - got.length) handler) (some n) _ :=
        .executed hinbox (hall ▸ hmax) hframe
          (fun out => show (Session.await (s₁.withReply (Session.stored P.endian out)
            ((got ++ chunk).length + size32 + P.slack))
              (.write (Session.frameOf P.endian out))).Phase P [] from
            Session.withReply_phase hholds hpending₁)
          (fun out => by simp [Session.await, Session.withReply, hpending₁])
      refine Eq.mp (congrArg (Completion P exec c st _ _ _) ?_) hexecuted
      rw [bind_assoc]
      apply bind_congr_ok
      rintro ⟨out, st'⟩ -
      dsimp only
      split <;> rfl

theorem complete_write {st : σ} {result : Option Nat} {r : Outcome (Conn × σ × Option Call)}
    {inp out : Nat} {frame : Bytes} (hs : c.session = some s)
    (hpending : s.pending = [.write frame]) (hinp : s.inpData = some ⟨inp, 0⟩)
    (hout : s.outData = some ⟨out, 0⟩) (hne : inp ≠ out) (hinpLive : (s.heap.blocks inp).isSome)
    (houtLive : (s.heap.blocks out).isSome)
    (hr : c.complete P exec st (.write frame) result = some r) :
    Completion P exec c st [] (.write frame) result r := by
  have herase : s.pending.erase (.write frame) = [] := by simp [hpending]
  unfold complete at hr
  rw [hs] at hr
  simp only [hpending, List.mem_singleton, not_true_eq_false, if_false] at hr
  rw [← hpending, herase] at hr
  cases hr
  obtain ⟨heap, hfree⟩ := Session.writeHandler_eq (s := { s with pending := [] }) hinp hout hne
    hinpLive houtLive
  rw [hfree, ok_bind, pure_eq_ok]
  cases result with
  | some n => exact .written rfl rfl
  | none => exact .writeFailed rfl

/-- The operation that completes is the one the session waits for. -/
theorem complete_pending {st : σ} {taken : Bytes} {op : Pending} {result : Option Nat}
    {r : Outcome (Conn × σ × Option Call)} (hs : c.session = some s) (hphase : s.Phase P taken)
    (hr : c.complete P exec st op result = some r) : s.pending = [op] := by
  obtain ⟨op', hp⟩ := hphase.pending_eq
  have hop : op ∈ s.pending := by
    by_contra hop
    unfold complete at hr
    rw [hs] at hr
    simp only [if_pos hop] at hr
    cases hr
  rw [hp, List.mem_singleton] at hop
  rw [hp, hop]

theorem complete_cases {st : σ} {taken : Bytes} {op : Pending} {result : Option Nat}
    {r : Outcome (Conn × σ × Option Call)} (hs : c.session = some s) (hphase : s.Phase P taken)
    (hr : c.complete P exec st op result = some r) : Completion P exec c st taken op result r := by
  have hop := complete_pending hs hphase hr
  cases hphase with
  | header hp =>
    cases hop.symm.trans hp
    exact complete_header hs hp hr
  | payload hp hinp hblock hfilled hheader hlength hmax hgot hhandler =>
    cases hop.symm.trans hp
    exact complete_readSome hs hp hinp hblock hfilled hheader hlength hmax hgot hhandler hr
  | writing hp hinp hout hne hinpLive houtLive =>
    cases hop.symm.trans hp
    exact complete_write hs hp hinp hout hne hinpLive houtLive hr

/-- A session that waits for nothing completes nothing. -/
theorem complete_ended {st : σ} {op : Pending} {result : Option Nat} (hs : c.session = some s)
    (hpending : s.pending = []) : c.complete P exec st op result = none := by
  simp [complete, hs, hpending]

end Conn

end RocksdbService
