import Mathlib.Tactic.Common

/-! # Streams of frames

A frame is a header of fixed length, which says how long the payload is or that there is none to
come, and the payload. `decode` is the list of payloads of a stream, up to the first frame that is
refused or not complete. A reader that takes frames off a stream while it arrives is at every moment
at some `Decodes stream frames rest`, which more bytes do not disturb (`Decodes.append`); what it has
taken is then the beginning of what the stream decodes to (`Decodes.decode_eq`). -/

namespace RocksdbService

structure Framing (α : Type) where
  header : Nat
  /-- The length of the payload; none when the frame is refused. -/
  size : List α → Option Nat
  header_pos : 0 < header

namespace Framing

variable {α : Type} (F : Framing α)

/-- The payload of the first frame and what follows the frame. -/
def next? (s : List α) : Option (List α × List α) :=
  if s.length < F.header then none
  else
    match F.size (s.take F.header) with
    | none => none
    | some n =>
      if s.length - F.header < n then none
      else some ((s.drop F.header).take n, (s.drop F.header).drop n)

/-- `decode` with a bound on the number of frames. -/
def decodeFrom : Nat → List α → List (List α)
  | 0, _ => []
  | fuel + 1, s =>
    match F.next? s with
    | none => []
    | some (payload, rest) => payload :: decodeFrom fuel rest

/-- The payloads of the complete frames that a stream begins with. -/
def decode (s : List α) : List (List α) := F.decodeFrom s.length s

variable {F} {s t rest rest' payload : List α} {payloads : List (List α)}

theorem next?_eq_some : F.next? s = some (payload, rest) ↔
    ∃ header, header.length = F.header ∧ F.size header = some payload.length ∧
      s = header ++ payload ++ rest := by
  constructor
  · intro h
    unfold next? at h
    split at h
    · cases h
    next hheader =>
    split at h
    · cases h
    next n hsize =>
    split at h
    · cases h
    next hn =>
    cases h
    have hlen : ((s.drop F.header).take n).length = n := by
      rw [List.length_take, List.length_drop]
      omega
    refine ⟨s.take F.header, ?_, by rw [hlen, hsize], ?_⟩
    · rw [List.length_take]
      omega
    · rw [List.append_assoc, List.take_append_drop, List.take_append_drop]
  · rintro ⟨header, hheader, hsize, rfl⟩
    have htake : (header ++ payload ++ rest).take F.header = header := by
      rw [List.append_assoc, ← hheader, List.take_left]
    have hdrop : (header ++ payload ++ rest).drop F.header = payload ++ rest := by
      rw [List.append_assoc, ← hheader, List.drop_left]
    unfold next?
    rw [if_neg (by simp only [List.length_append]; omega), htake, hsize, hdrop]
    dsimp only
    rw [if_neg (by simp only [List.length_append]; omega), List.take_left, List.drop_left]

/-- A complete frame stays complete when more arrives behind it. -/
theorem next?_append (h : F.next? s = some (payload, rest)) (t : List α) :
    F.next? (s ++ t) = some (payload, rest ++ t) := by
  obtain ⟨header, hheader, hsize, rfl⟩ := next?_eq_some.mp h
  exact next?_eq_some.mpr ⟨header, hheader, hsize, by simp only [List.append_assoc]⟩

theorem next?_length (h : F.next? s = some (payload, rest)) : rest.length < s.length := by
  obtain ⟨header, hheader, -, rfl⟩ := next?_eq_some.mp h
  have := F.header_pos
  simp only [List.length_append]
  omega

theorem next?_short (h : s.length < F.header) : F.next? s = none := if_pos h

/-- A stream that has the header but not the whole payload. -/
theorem next?_incomplete {header got : List α} {n : Nat} (hheader : header.length = F.header)
    (hsize : F.size header = some n) (hlt : got.length < n) : F.next? (header ++ got) = none := by
  cases h : F.next? (header ++ got) with
  | none => rfl
  | some p =>
    obtain ⟨header', hheader', hsize', heq⟩ := next?_eq_some.mp h
    rw [List.append_assoc] at heq
    obtain ⟨rfl, hgot⟩ := List.append_inj heq (hheader.trans hheader'.symm)
    cases hsize.symm.trans hsize'
    rw [hgot, List.length_append] at hlt
    omega

theorem next?_refused {header : List α} (hheader : header.length = F.header)
    (hsize : F.size header = none) (t : List α) : F.next? (header ++ t) = none := by
  cases h : F.next? (header ++ t) with
  | none => rfl
  | some p =>
    obtain ⟨header', hheader', hsize', heq⟩ := next?_eq_some.mp h
    rw [List.append_assoc] at heq
    obtain ⟨rfl, -⟩ := List.append_inj heq (hheader.trans hheader'.symm)
    cases hsize.symm.trans hsize'

theorem decodeFrom_of_le {fuel : Nat} (h : s.length ≤ fuel) : F.decodeFrom fuel s = F.decode s := by
  have key : ∀ (fuel fuel' : Nat) (s : List α), s.length ≤ fuel → s.length ≤ fuel' →
      F.decodeFrom fuel s = F.decodeFrom fuel' s := by
    intro fuel
    induction fuel with
    | zero =>
      intro fuel' s h _
      obtain rfl := List.length_eq_zero_iff.mp (Nat.le_zero.mp h)
      cases fuel' with
      | zero => rfl
      | succ fuel' => rw [decodeFrom, decodeFrom, next?_short (s := ([] : List α)) F.header_pos]
    | succ fuel ih =>
      intro fuel' s h h'
      cases hn : F.next? s with
      | none => cases fuel' <;> simp [decodeFrom, hn]
      | some p =>
        obtain ⟨payload, rest⟩ := p
        have hlt := next?_length hn
        cases fuel' with
        | zero => omega
        | succ fuel' =>
          simp only [decodeFrom, hn]
          rw [ih fuel' rest (by omega) (by omega)]
  exact key fuel s.length s h (Nat.le_refl _)

theorem decode_of_none (h : F.next? s = none) : F.decode s = [] := by
  unfold decode
  cases s.length with
  | zero => rfl
  | succ n => rw [decodeFrom, h]

theorem decode_of_some (h : F.next? s = some (payload, rest)) :
    F.decode s = payload :: F.decode rest := by
  have hlt := next?_length h
  obtain ⟨n, hn⟩ := Nat.exists_eq_succ_of_ne_zero (Nat.ne_of_gt (Nat.zero_lt_of_lt hlt))
  rw [decode, hn, decodeFrom, h]
  exact congrArg (payload :: ·) (decodeFrom_of_le (by omega))

variable (F) in
/-- The stream begins with frames of these payloads, and `rest` follows them. -/
inductive Decodes (s : List α) : List (List α) → List α → Prop
  | refl : Decodes s [] s
  | snoc {payloads : List (List α)} {rest payload rest' : List α} (h : Decodes s payloads rest)
    (hnext : F.next? rest = some (payload, rest')) : Decodes s (payloads ++ [payload]) rest'

namespace Decodes

theorem append (h : F.Decodes s payloads rest) (t : List α) :
    F.Decodes (s ++ t) payloads (rest ++ t) := by
  induction h with
  | refl => exact refl
  | snoc _ hnext ih => exact ih.snoc (next?_append hnext t)

theorem decode_eq (h : F.Decodes s payloads rest) : F.decode s = payloads ++ F.decode rest := by
  induction h with
  | refl => rfl
  | snoc _ hnext ih => rw [ih, decode_of_some hnext, List.append_assoc, List.singleton_append]

/-- The stream decodes to the payloads taken and nothing else when no frame follows. -/
theorem decode_eq_of_none (h : F.Decodes s payloads rest) (hnext : F.next? rest = none) :
    F.decode s = payloads := by
  rw [h.decode_eq, decode_of_none hnext, List.append_nil]

theorem isPrefix (h : F.Decodes s payloads rest) : payloads <+: F.decode s :=
  ⟨F.decode rest, h.decode_eq.symm⟩

end Decodes

end Framing

end RocksdbService
