import Mathlib.Data.List.TakeWhile
import RocksdbService.Service.Session

/-! # The buffers of a session

A buffer is filled from its front, so its block is always the bytes stored so far followed by bytes
that were never written (`filled`). `do_write` reads the payload out of one buffer and fills another
with the reply; what it does is said once in `Session.doWrite_eq`. -/

namespace RocksdbService

open Outcome

/-- A block of `n` bytes of which the first ones have been stored. -/
def filled (bs : Bytes) (n : Nat) : List (Option Byte) :=
  bs.map some ++ List.replicate (n - bs.length) none

theorem filled_length {bs : Bytes} {n : Nat} (h : bs.length ≤ n) : (filled bs n).length = n := by
  simp [filled, h]

theorem filled_self (bs : Bytes) : filled bs bs.length = bs.map some := by simp [filled]

namespace Heap

@[simp] theorem setBlock_blocks (h : Heap) (b i : Nat) (x : Option (List (Option Byte))) :
    (h.setBlock b x).blocks i = if i = b then x else h.blocks i := rfl

theorem setBlock_setBlock (h : Heap) (b : Nat) (x y : Option (List (Option Byte))) :
    (h.setBlock b x).setBlock b y = h.setBlock b y := by
  simp only [setBlock]
  congr 1
  funext i
  split <;> rfl

/-- Storing behind what has been stored. -/
theorem write_filled {h : Heap} {b : Nat} {bs cs : Bytes} {n : Nat}
    (hb : h.blocks b = some (filled bs n)) (hle : bs.length + cs.length ≤ n) :
    h.write ⟨b, bs.length⟩ cs = .ok (h.setBlock b (some (filled (bs ++ cs) n))) := by
  have hlen : (filled bs n).length = n := filled_length (Nat.le_of_add_right_le hle)
  have hblock : (filled bs n).take bs.length ++ cs.map some ++
      (filled bs n).drop (bs.length + cs.length) = filled (bs ++ cs) n := by
    have htake : (filled bs n).take bs.length = bs.map some :=
      List.take_left' (List.length_map some)
    have hdrop : (filled bs n).drop (bs.length + cs.length) =
        List.replicate (n - (bs ++ cs).length) none := by
      rw [filled, ← List.drop_drop, List.drop_left' (List.length_map some), List.drop_replicate,
        List.length_append, Nat.sub_sub]
    rw [htake, hdrop, filled, List.map_append]
  rw [write, hb]
  simp only [hlen, if_pos hle, hblock]

theorem write_out_of_range {h : Heap} {p : Ptr} {bs : Bytes} {block : List (Option Byte)}
    (hb : h.blocks p.block = some block) (hlt : block.length < p.offset + bs.length) :
    h.write p bs = .error .undefined := by
  rw [write, hb]
  simp only [if_neg (Nat.not_le.mpr hlt)]

/-- A header is stored in front of a body that has been stored already. -/
theorem write_behind_header {h : Heap} {b : Nat} (header body : Bytes) {n : Nat}
    (hb : h.blocks b = some (List.replicate n none)) (hle : header.length + body.length ≤ n) :
    (do let h ← h.write ⟨b, header.length⟩ body; h.write ⟨b, 0⟩ header) =
      .ok (h.setBlock b (some (filled (header ++ body) n))) := by
  have hrest : (List.replicate (α := Option Byte) n none).drop (header.length + body.length) =
      List.replicate (n - (header ++ body).length) none := by
    rw [List.drop_replicate, List.length_append]
  have hfront : ((List.replicate (α := Option Byte) n none).take header.length).length =
      header.length := by
    rw [List.length_take, List.length_replicate]
    exact Nat.min_eq_left (Nat.le_of_add_right_le hle)
  generalize hold : (List.replicate (α := Option Byte) n none).take header.length = old at hfront
  have hbody : h.write ⟨b, header.length⟩ body = .ok (h.setBlock b (some
      (old ++ body.map some ++ List.replicate (n - (header ++ body).length) none))) := by
    rw [write, hb]
    simp only [List.length_replicate, if_pos hle, hrest, hold]
  rw [hbody, ok_bind, write]
  simp only [setBlock_blocks, if_true, Nat.zero_add, List.take_zero, List.nil_append]
  rw [if_pos (by simp [hfront]), setBlock_setBlock, List.append_assoc old,
    List.drop_left' hfront, filled, List.map_append, List.append_assoc]

/-- Reading from the front. -/
theorem read_filled {h : Heap} {b : Nat} {bs : Bytes} {n k : Nat}
    (hb : h.blocks b = some (filled bs n)) (hk : k ≤ bs.length) (hn : bs.length ≤ n) :
    h.read ⟨b, 0⟩ k = .ok (bs.take k) := by
  have hread : ((filled bs n).take k).mapM id = some (bs.take k) := by
    rw [filled, List.take_append_of_le_length (by simpa using hk), ← List.map_take]
    induction bs.take k with
    | nil => rfl
    | cons c cs ih => simp [List.mapM_cons, ih]
  rw [read, hb]
  simp only [Nat.zero_add, filled_length hn, if_pos (hk.trans hn), List.drop_zero, hread]

end Heap

namespace Endian

theorem digits256_length (n x : Nat) : (digits256 n x).length = n := by
  induction n generalizing x with
  | zero => rfl
  | succ n ih => rw [digits256, List.length_cons, ih]

theorem encode32_length (e : Endian) (x : Nat) : (e.encode32 x).length = size32 := by
  cases e
  · exact digits256_length 4 x
  · rw [encode32, List.length_reverse]
    exact digits256_length 4 x

theorem value256_digits256 (n x : Nat) : value256 (digits256 n x) = x % 256 ^ n := by
  induction n generalizing x with
  | zero => rw [Nat.pow_zero, Nat.mod_one]; rfl
  | succ n ih =>
    have hdigit : (x % 256).toUInt8.toNat = x % 256 := by
      rw [Nat.toUInt8_eq, UInt8.toNat_ofNat', Nat.mod_mod]
    rw [digits256, value256, ih, hdigit, Nat.pow_succ', Nat.mod_mul]

theorem decode32_encode32 (e : Endian) {x : Nat} (h : x < 2 ^ 32) : e.decode32 (e.encode32 x) = x := by
  cases e
  · exact (value256_digits256 4 x).trans (Nat.mod_eq_of_lt h)
  · rw [encode32, decode32, List.reverse_reverse]
    exact (value256_digits256 4 x).trans (Nat.mod_eq_of_lt h)

end Endian

/-- `strncpy` copies a text without NUL as it is. -/
theorem strncpy_self {src : Bytes} (h : 0 ∉ src) : strncpy src src.length = src := by
  have htake : (src.take src.length).takeWhile (· ≠ 0) = src := by
    rw [List.take_length, List.takeWhile_eq_self_iff]
    exact fun b hb => decide_eq_true (ne_of_mem_of_not_mem hb h)
  rw [strncpy, htake, Nat.sub_self, List.replicate_zero, List.append_nil]

theorem strncpy_length (src : Bytes) (n : Nat) : (strncpy src n).length = n := by
  have h : ((src.take n).takeWhile (· ≠ 0)).length ≤ n :=
    (List.takeWhile_prefix _).length_le.trans (List.length_take_le n src)
  rw [strncpy, List.length_append, List.length_replicate, Nat.add_sub_cancel' h]

namespace Session

variable {σ : Type} {P : Platform} {exec : Bytes → σ → Outcome (Bytes × σ)} {s : Session}

/-- `inp_data_` points to a block that holds `payload`. -/
def Holds (s : Session) (payload : Bytes) : Prop :=
  ∃ block, s.inpData = some ⟨block, 0⟩ ∧ block < s.heap.next ∧
    s.heap.blocks block = some (payload.map some)

/-- `out_data_` points to a new block of `n` bytes that begins with `bytes`. -/
def withReply (s : Session) (bytes : Bytes) (n : Nat) : Session :=
  { s with
    heap := { (s.heap.setBlock s.heap.next (some (filled bytes n))) with next := s.heap.next + 1 }
    outData := some ⟨s.heap.next, 0⟩ }

/-- What `do_write` stores for the reply `out`. -/
def stored (e : Endian) (out : Bytes) : Bytes :=
  e.encode32 (out.length % 2 ^ 32) ++ strncpy out (out.length % 2 ^ 32)

/-- What `do_write` sends for the reply `out`. -/
def frameOf (e : Endian) (out : Bytes) : Bytes :=
  (stored e out).take ((out.length % 2 ^ 32 + size32) % 2 ^ 32)

theorem stored_length (e : Endian) (out : Bytes) :
    (stored e out).length = out.length % 2 ^ 32 + size32 := by
  rw [stored, List.length_append, Endian.encode32_length, strncpy_length, Nat.add_comm]

/-- A short reply without NUL is sent behind its length as it is. -/
theorem frameOf_eq (e : Endian) {out : Bytes} (hlen : out.length + size32 < 2 ^ 32) (hnul : 0 ∉ out) :
    frameOf e out = e.encode32 out.length ++ out := by
  have hout : out.length % 2 ^ 32 = out.length := Nat.mod_eq_of_lt (Nat.lt_of_le_of_lt
    (Nat.le_add_right _ _) hlen)
  rw [frameOf, stored, hout, strncpy_self hnul, Nat.mod_eq_of_lt hlen]
  exact List.take_of_length_le (by rw [List.length_append, Endian.encode32_length, Nat.add_comm])

/-- `do_write` on a payload: the reply is stored behind four bytes for its length, where there is
room for it. -/
theorem doWrite_eq {payload : Bytes} (hs : s.Holds payload) (hlen : payload.length ≤ maxLength)
    (st : σ) :
    s.doWrite P exec st payload.length = (do
      let (out, st) ← exec payload st
      if out.length % 2 ^ 32 ≤ payload.length + P.slack then
        return {
          session := (s.withReply (stored P.endian out)
            (payload.length + size32 + P.slack)).await (.write (frameOf P.endian out))
          state := st
          call := some ⟨payload, out, frameOf P.endian out⟩ }
      else throw .undefined) := by
  obtain ⟨block, hinp, hlt, hblock⟩ := hs
  have hsize : (payload.length + size32) % 2 ^ 32 = payload.length + size32 := by
    apply Nat.mod_eq_of_lt
    have : payload.length ≤ 1048576 := hlen
    simp only [size32]
    omega
  generalize hn : payload.length + size32 + P.slack = n
  have hread : Heap.read (s.heap.alloc n).2 ⟨block, 0⟩ payload.length = .ok payload := by
    have hb : (s.heap.alloc n).2.blocks block = some (filled payload payload.length) := by
      simp [Heap.alloc, hlt.ne, hblock, filled_self]
    rw [Heap.read_filled hb le_rfl le_rfl, List.take_length]
  have hout : (s.heap.alloc n).2.blocks s.heap.next = some (List.replicate n none) := by
    simp [Heap.alloc]
  have hptr : (s.heap.alloc n).1 = ⟨s.heap.next, 0⟩ := rfl
  simp only [doWrite, hsize, hn, hinp, deref, ok_bind, hread, hptr]
  refine bind_congr_ok fun ⟨out, st'⟩ _ => ?_
  generalize hlen' : out.length % 2 ^ 32 = outLen
  have hadd : Ptr.add ⟨s.heap.next, 0⟩ size32 = ⟨s.heap.next, (P.endian.encode32 outLen).length⟩ := by
    rw [Endian.encode32_length, Ptr.add, Nat.zero_add]
  have hroom : size32 + outLen ≤ n ↔ outLen ≤ payload.length + P.slack := by
    rw [← hn]; simp only [size32]; omega
  dsimp only
  rw [hadd]
  split
  · next hle =>
    have hw := Heap.write_behind_header (P.endian.encode32 outLen) (strncpy out outLen) hout
      (by rw [Endian.encode32_length, strncpy_length]; exact hroom.mpr hle)
    have hstored : P.endian.encode32 outLen ++ strncpy out outLen = stored P.endian out := by
      rw [stored, hlen']
    have hblock' : ((s.heap.alloc n).2.setBlock s.heap.next
        (some (filled (stored P.endian out) n))).blocks s.heap.next =
          some (filled (stored P.endian out) n) := by simp
    have hfit : (stored P.endian out).length ≤ n := by
      rw [stored_length, hlen', Nat.add_comm]; exact hroom.mpr hle
    have hcut : (outLen + size32) % 2 ^ 32 ≤ (stored P.endian out).length := by
      rw [stored_length, hlen']; exact Nat.mod_le _ _
    have hsend := Heap.read_filled hblock' hcut hfit
    have hheap : (s.heap.alloc n).2.setBlock s.heap.next (some (filled (stored P.endian out) n)) =
        { (s.heap.setBlock s.heap.next (some (filled (stored P.endian out) n))) with
          next := s.heap.next + 1 } := by
      simp only [Heap.alloc, Heap.setBlock]
      congr 1
      funext i
      split <;> rfl
    rw [← bind_assoc, hw, hstored, ok_bind, hsend, ok_bind, hheap, frameOf, hlen', withReply, hinp]
  · next hgt =>
    rw [Heap.write_out_of_range hout]
    · rfl
    · rw [List.length_replicate, Endian.encode32_length, strncpy_length]
      exact Nat.not_le.mp fun h => hgt (hroom.mp h)

end Session

end RocksdbService
