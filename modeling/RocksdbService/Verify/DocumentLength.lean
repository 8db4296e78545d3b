import Mathlib.Algebra.Order.BigOperators.Group.List
import Mathlib.Algebra.Order.Group.Nat
import Mathlib.Algebra.Ring.Nat
import RocksdbService.Verify.Reader

/-! # How long a document is

Decoding a string does not make it longer, so a document whose root is an object has room for the
names of its members, the two quotes, the colon, a value and a separator of each, and its opening
brace (`membersLength_lt`). -/

namespace RocksdbService.Json.OurReader

theorem codePointToUTF8_length (cp : Nat) : (codePointToUTF8 cp).length ≤ 4 := by
  unfold codePointToUTF8
  split
  · exact Nat.le_of_ble_eq_true rfl
  split
  · exact Nat.le_of_ble_eq_true rfl
  split
  · exact Nat.le_of_ble_eq_true rfl
  split
  · exact Nat.le_refl 4
  · exact Nat.zero_le 4

theorem decodeUnicodeEscapeSequence_length {s : Bytes} {unicode : Nat}
    (h : decodeUnicodeEscapeSequence s = .ok unicode) : 4 ≤ s.length := by
  unfold decodeUnicodeEscapeSequence at h
  split at h
  · cases h
  · next hlen => exact Nat.not_lt.mp hlen

theorem decodeUnicodeCodePoint_taken {s : Bytes} {unicode taken : Nat}
    (h : decodeUnicodeCodePoint s = .ok (unicode, taken)) : 4 ≤ taken ∧ taken ≤ s.length := by
  obtain ⟨u, hu, h⟩ := Outcome.bind_eq_ok.mp h
  have hlen := decodeUnicodeEscapeSequence_length hu
  split at h
  · dsimp only at h
    split at h
    · cases h
    next hsix =>
    split at h
    · obtain ⟨_, -, h⟩ := Outcome.bind_eq_ok.mp h
      cases h
      rw [List.length_drop] at hsix
      exact ⟨by decide, by omega⟩
    · cases h
  · cases h
    exact ⟨le_rfl, hlen⟩

theorem decodeChars_length {skip : Nat} {s t : Bytes} (h : decodeChars skip s = .ok t) :
    t.length ≤ s.length - skip := by
  have cons : ∀ {b : Byte} {x : ReadM Bytes} {n : Nat} {t : Bytes},
      (do return b :: (← x)) = .ok t → (∀ t, x = .ok t → t.length ≤ n) → t.length ≤ n + 1 := by
    intro b x n t h hx
    obtain ⟨t', ht, h⟩ := Outcome.bind_eq_ok.mp h
    cases h
    exact Nat.succ_le_succ (hx t' ht)
  induction skip, s using decodeChars.induct generalizing t with
  | case1 skip => cases skip <;> cases h <;> exact Nat.zero_le _
  | case2 skip c s ih =>
    rw [decodeChars_skip] at h
    simpa using ih h
  | case3 s => rw [decodeChars_quote] at h; cases h; exact Nat.zero_le _
  | case4 => cases h
  | case5 s _ ih =>
    rw [decodeChars_unicode] at h
    obtain ⟨⟨unicode, taken⟩, hu, h⟩ := Outcome.bind_eq_ok.mp h
    obtain ⟨t', ht, h⟩ := Outcome.bind_eq_ok.mp h
    cases h
    have htaken := decodeUnicodeCodePoint_taken hu
    have hutf := codePointToUTF8_length unicode
    have hrest := ih taken (by rw [decodeChars_skip]; exact ht)
    simp only [List.length_append, List.length_cons] at hrest ⊢
    omega
  | case6 e s he b hb _ ih =>
    rw [decodeChars_escape he hb] at h
    have hlen := cons h fun t ht => ih (by rw [decodeChars_skip]; exact ht)
    simp only [List.length_cons] at hlen ⊢
    omega
  | case7 e s he hb _ => simp [decodeChars, he, hb, addError] at h
  | case8 c s h₁ h₂ ih =>
    rw [decodeChars_char h₁ h₂] at h
    exact cons h fun t ht => ih ht

/-- A closed string has its closing quote. -/
theorem readString_closed {s : Bytes} (h : (readString s).1 = true) :
    0 < (readString s).2.1.length := by
  induction s using readString.induct with
  | case1 => cases h
  | case2 => cases h
  | case3 e s ih => simp [readString_escape]
  | case4 s _ => simp [readString_quote]
  | case5 c s h₁ h₂ ih => simp [readString_char h₁ h₂]

theorem readToken_quote {s s' : Bytes} (h : skipSpaces s = 0x22 :: s') :
    readToken s = ((readString s').1,
      ⟨if (readString s').1 then .string else .error, 0x22 :: (readString s').2.1⟩,
      (readString s').2.2) := by
  simp only [readToken, h]

/-- A string token begins with a quote. -/
theorem readToken_ne_string {s : Bytes} (h : ∀ s', skipSpaces s ≠ 0x22 :: s') :
    (readToken s).2.1.type ≠ .string := by
  have hliteral : ∀ {type : TokenType} {pattern s : Bytes}, type ≠ .string →
      (readLiteral type pattern s).2.1.type ≠ .string := by
    intro type pattern s hne
    unfold readLiteral
    split
    split
    · exact hne
    · exact nofun
  have hsigned : ∀ {sign : Byte} {s : Bytes}, (readSignedNumber sign s).2.1.type ≠ .string := by
    intro sign s
    unfold readSignedNumber
    split <;> exact nofun
  unfold readToken
  split
  · exact nofun
  next c s' heq =>
  split
  case h_5 => exact absurd heq (h s')
  case h_6 =>
    obtain ⟨ok, rest⟩ := readComment s'
    cases ok <;> simp
  any_goals first
    | exact hsigned
    | exact hliteral (by decide)
    | simp
  split <;> simp

/-- A string token: its text with both quotes, and what follows, are parts of the document. -/
theorem readToken_string {s : Bytes} (h : (readToken s).2.1.type = .string) :
    2 ≤ (readToken s).2.1.text.length ∧
      (readToken s).2.1.text.length + (readToken s).2.2.length ≤ s.length := by
  have hquote : ∃ s', skipSpaces s = 0x22 :: s' := by
    by_contra hne
    exact readToken_ne_string (fun s' h => hne ⟨s', h⟩) h
  obtain ⟨s', hs'⟩ := hquote
  have hlen : (0x22 :: s').length ≤ s.length := hs' ▸ dropWhile_length isSpace s
  have happend := congrArg List.length (readString_append s')
  rw [readToken_quote hs'] at h ⊢
  have hclosed : (readString s').1 = true := by
    by_contra hopen
    simp only [if_neg hopen] at h
    cases h
  have hpos := readString_closed hclosed
  simp only [List.length_cons, List.length_append] at hlen happend ⊢
  omega

theorem skipCommentTokensFrom_string {n : Nat} {s : Bytes}
    (h : (skipCommentTokensFrom n s).2.1.type = .string) :
    2 ≤ (skipCommentTokensFrom n s).2.1.text.length ∧
      (skipCommentTokensFrom n s).2.1.text.length + (skipCommentTokensFrom n s).2.2.length ≤
        s.length := by
  induction n generalizing s with
  | zero => exact readToken_string h
  | succ n ih =>
    rw [skipCommentTokensFrom] at h ⊢
    split at h
    · next hc =>
      rw [if_pos hc]
      have hlen := readToken_length s
      obtain ⟨h₁, h₂⟩ := ih h
      exact ⟨h₁, h₂.trans hlen⟩
    · next hc => rw [if_neg hc]; exact readToken_string h

/-- A member name, its quotes and the colon are parts of the document. -/
theorem readMemberName_some_length {s s' name : Bytes}
    (h : readMemberName s = .ok (some name, s')) : name.length + 3 + s'.length ≤ s.length := by
  unfold readMemberName at h
  split at h
  next ok token s₁ heq =>
  split at h
  · cases h
  split at h
  · cases h
  split at h
  · cases h
  next hstr =>
  obtain ⟨text, htext, h⟩ := Outcome.bind_eq_ok.mp h
  split at h
  · cases h
  split at h
  next ok' colon s₂ hcolon =>
  split at h
  · cases h
  next hsep =>
  cases h
  have htoken := skipCommentTokensFrom_string (n := s.length) (s := s)
  rw [show skipCommentTokensFrom s.length s = _ from heq] at htoken
  obtain ⟨htwo, hsum⟩ := htoken (not_not.mp hstr)
  have hname := decodeChars_length htext
  have hlt : s'.length < s₁.length := by
    have hcolon' := @readToken_lt s₁
    rw [hcolon] at hcolon'
    refine hcolon' fun hend => hsep ?_
    replace hend : colon.type = .endOfStream := hend
    simp [hend]
  rw [List.length_dropLast, List.length_tail] at hname
  simp only at htwo hsum
  omega

theorem readMemberEnd_lt {s s' : Bytes} {closed : Bool}
    (h : readMemberEnd s = .ok (closed, s')) : s'.length < s.length := by
  unfold readMemberEnd at h
  split at h
  next ok comma s₁ heq =>
  split at h
  · cases h
  next htype =>
  have hs : s₁.length < s.length := by
    have hcomma := @readToken_lt s
    rw [heq] at hcomma
    refine hcomma fun hend => htype ?_
    replace hend : comma.type = .endOfStream := hend
    simp [hend]
  split at h
  next heq' =>
  cases h
  split at heq'
  · exact (skipCommentTokens_length heq').trans_lt hs
  · cases heq'
    exact hs

theorem readValue_lt {fuel d : Nat} {s s' : Bytes} {v : Value}
    (h : readValue fuel d s = .ok (v, s')) : s'.length < s.length := by
  cases fuel with
  | zero => rw [readValue, readValueAtEnd] at h; split at h <;> cases h
  | succ fuel =>
    obtain ⟨-, hobject, harray⟩ := read_length fuel
    rw [readValue] at h
    split at h
    · cases h
    split at h
    next ok token rest heq =>
    have hlt := skipCommentTokens_lt heq
    split at h
    · next ho => exact (hobject _ _ _ _ _ h).trans_lt (hlt (by rw [ho]; decide))
    split at h
    · next ha => exact (harray _ _ _ _ _ h).trans_lt (hlt (by rw [ha]; decide))
    obtain ⟨w, hw, h⟩ := Outcome.bind_eq_ok.mp h
    cases h
    refine hlt fun hend => ?_
    simp [readScalar, hend, addError] at hw

/-! ## Objects -/

/-- What the members of an object take at least: the name, its quotes, the colon, a value and the
comma or brace after it. -/
def membersLength (ms : Members) : Nat := (ms.map fun p => p.1.length + 5).sum

theorem membersLength_insert (ms : Members) (name : Bytes) (v : Value) :
    membersLength (OrdMap.insert ms name v) ≤ membersLength ms + (name.length + 5) := by
  induction ms with
  | nil => simp [membersLength]
  | cons p ms ih =>
    simp only [membersLength] at ih
    unfold OrdMap.insert
    split
    · simp only [membersLength, List.map_cons, List.sum_cons]
      omega
    split
    · simp only [membersLength, List.map_cons, List.sum_cons]
      omega
    · simp only [membersLength, List.map_cons, List.sum_cons]
      omega

theorem readObject_membersLength {fuel d : Nat} {ms : Members} {s s' : Bytes} {v : Value}
    (h : readObject fuel d ms s = .ok (v, s')) :
    ∃ ms', v = .object ms' ∧ membersLength ms' ≤ membersLength ms + s.length := by
  induction fuel generalizing ms s with
  | zero => rw [readObject] at h; cases h
  | succ fuel ih =>
    rw [readObject] at h
    obtain ⟨⟨name, s₁⟩, h₁, h⟩ := Outcome.bind_eq_ok.mp h
    cases name with
    | none => cases h; exact ⟨ms, rfl, Nat.le_add_right _ _⟩
    | some name =>
      obtain ⟨⟨value, s₂⟩, h₂, h⟩ := Outcome.bind_eq_ok.mp h
      obtain ⟨⟨closed, s₃⟩, h₃, h⟩ := Outcome.bind_eq_ok.mp h
      have hname := readMemberName_some_length h₁
      have hvalue := readValue_lt h₂
      have hend := readMemberEnd_lt h₃
      have hinsert := membersLength_insert ms name value
      cases closed with
      | true => cases h; exact ⟨_, rfl, by omega⟩
      | false =>
        obtain ⟨ms', hv, hlen⟩ := ih h
        exact ⟨ms', hv, by omega⟩

theorem membersLength_find? {ms : Members} {key : Bytes} {v : Value}
    (h : OrdMap.find? ms key = some v) : key.length + 5 ≤ membersLength ms :=
  List.le_sum_of_mem (List.mem_map_of_mem (OrdMap.mem_of_find? h))

theorem membersLength_find?_two {ms : Members} {key key' : Bytes} {v v' : Value}
    (hne : key ≠ key') (h : OrdMap.find? ms key = some v) (h' : OrdMap.find? ms key' = some v') :
    key.length + 5 + (key'.length + 5) ≤ membersLength ms := by
  induction ms with
  | nil => cases h
  | cons p ms ih =>
    have hcons : membersLength (p :: ms) = p.1.length + 5 + membersLength ms := rfl
    rw [OrdMap.find?] at h h'
    split at h <;> split at h'
    · next heq heq' => exact absurd (heq.trans heq'.symm) hne
    · next heq _ =>
      have := membersLength_find? h'
      rw [hcons, ← heq]
      omega
    · next _ heq =>
      have := membersLength_find? h
      rw [hcons, ← heq]
      omega
    · have := ih h h'
      omega

end RocksdbService.Json.OurReader

namespace RocksdbService.Json

open OurReader (membersLength)

/-- A document whose root is an object is longer than its members. -/
theorem membersLength_lt {doc : Bytes} {ms : Members}
    (h : parseFromStream doc = .ok (.ok (.object ms))) : membersLength ms < doc.length := by
  obtain ⟨rest, h⟩ := parseFromStream_eq_ok h
  have hbom := OurReader.skipBom_length doc
  unfold OurReader.parse at h
  dsimp only at h
  generalize 2 * (OurReader.skipBom doc).length = fuel at h
  cases fuel with
  | zero => rw [OurReader.readValue, OurReader.readValueAtEnd] at h; split at h <;> cases h
  | succ fuel =>
    rw [OurReader.readValue] at h
    split at h
    · cases h
    split at h
    next ok token s heq =>
    have hlt := OurReader.skipCommentTokens_lt heq
    split at h
    · next ho =>
      obtain ⟨ms', hms, hlen⟩ := OurReader.readObject_membersLength h
      cases hms
      have := hlt (by rw [ho]; decide)
      simp only [membersLength, List.map_nil, List.sum_nil, Nat.zero_add] at hlen ⊢
      omega
    split at h
    · obtain ⟨xs, hxs⟩ := OurReader.readArray_isArray h
      cases hxs
    · obtain ⟨v, hv, h⟩ := Outcome.bind_eq_ok.mp h
      cases h
      exact absurd rfl (OurReader.readScalar_ne_object hv ms)

end RocksdbService.Json
