import RocksdbService.Json.Reader

/-! # Facts about the reader

Every token but the end of the stream takes at least one byte, so no function of the reader leaves
more bytes than it found (`read_length`) and twice the number of bytes is fuel enough
(`readValue_fuel`, `readObject_fuel`, `readArray_fuel`). The root of an accepted document is well
formed: the names of an object strictly increase and its integers have 64 bits
(`parseFromStream_wellFormed`). -/

namespace RocksdbService.Json.Value

inductive WellFormed : Value → Prop
  | null : WellFormed null
  | int {i : Int} (h : -2 ^ 63 ≤ i ∧ i < 2 ^ 63) : WellFormed (int i)
  | uint {n : Nat} (h : n < 2 ^ 64) : WellFormed (uint n)
  | real (d : Double) : WellFormed (real d)
  | string (s : JString) : WellFormed (string s)
  | bool (b : Bool) : WellFormed (bool b)
  | array {xs : List Value} (h : ∀ x ∈ xs, WellFormed x) : WellFormed (array xs)
  | object {ms : Members} (hs : OrdMap.Sorted ms) (h : ∀ p ∈ ms, WellFormed p.2) :
    WellFormed (object ms)

namespace WellFormed

theorem empty_object : (Value.object []).WellFormed := .object .nil nofun

theorem empty_array : (Value.array []).WellFormed := .array nofun

theorem sorted {ms : Members} (h : (Value.object ms).WellFormed) : OrdMap.Sorted ms := by
  cases h; assumption

theorem of_mem {ms : Members} (h : (Value.object ms).WellFormed) {p : Bytes × Value}
    (hp : p ∈ ms) : p.2.WellFormed := by
  cases h with
  | object _ h => exact h p hp

theorem insert {ms : Members} {v : Value} (h : (Value.object ms).WellFormed) (name : Bytes)
    (hv : v.WellFormed) : (Value.object (OrdMap.insert ms name v)).WellFormed := by
  cases h with
  | object hs h =>
    refine .object (hs.insert name v) fun p hp => ?_
    rcases OrdMap.mem_insert hp with rfl | hp
    · exact hv
    · exact h p hp

theorem push {xs : List Value} {v : Value} (h : (Value.array xs).WellFormed) (hv : v.WellFormed) :
    (Value.array (xs ++ [v])).WellFormed := by
  cases h with
  | array h =>
    refine .array fun x hx => ?_
    rcases List.mem_append.mp hx with hx | hx
    · exact h x hx
    · exact List.mem_singleton.mp hx ▸ hv

theorem member {v : Value} (h : v.WellFormed) (key : Bytes) : (v.member key).WellFormed := by
  cases h with
  | object hs h =>
    rw [Value.member]
    cases hf : OrdMap.find? _ key with
    | none => exact .null
    | some x => exact h _ (OrdMap.mem_of_find? hf)
  | _ => exact .null

end WellFormed

/-- Empty collections have the property, and one more member or element keeps it. -/
structure Closed (P : Value → Prop) : Prop where
  empty_object : P (.object [])
  empty_array : P (.array [])
  insert : ∀ {ms : Members} {v : Value} (name : Bytes), P (.object ms) → P v →
    P (.object (OrdMap.insert ms name v))
  push : ∀ {xs : List Value} {v : Value}, P (.array xs) → P v → P (.array (xs ++ [v]))

theorem WellFormed.closed : Closed WellFormed where
  empty_object := .empty_object
  empty_array := .empty_array
  insert name h hv := h.insert name hv
  push h hv := h.push hv

end RocksdbService.Json.Value

namespace RocksdbService.Json.OurReader

theorem dropWhile_length (p : Byte → Bool) (s : Bytes) : (s.dropWhile p).length ≤ s.length :=
  (List.dropWhile_suffix p).length_le

theorem readCStyleComment_length (s : Bytes) : (readCStyleComment s).2.length ≤ s.length := by
  induction s using readCStyleComment.induct with
  | case1 => exact Nat.le_refl _
  | case2 c => simp [readCStyleComment]
  | case3 c d s h => simp [readCStyleComment, h]; omega
  | case4 c d s h ih =>
    rw [readCStyleComment, if_neg h]
    exact ih.trans (Nat.le_succ _)

theorem readCppStyleComment_length (s : Bytes) : (readCppStyleComment s).length ≤ s.length := by
  induction s using readCppStyleComment.induct with
  | case1 => exact Nat.le_refl _
  | case2 s => simp [readCppStyleComment]
  | case3 s => simp [readCppStyleComment]; omega
  | case4 s h => simp [readCppStyleComment]
  | case5 c s h h' ih => simp only [readCppStyleComment, h, h']; exact ih.trans (Nat.le_succ _)

theorem readComment_length (s : Bytes) : (readComment s).2.length ≤ s.length := by
  cases s with
  | nil => exact Nat.le_refl _
  | cons c s =>
    rw [readComment]
    split
    · exact (readCStyleComment_length s).trans (Nat.le_succ _)
    · split
      · exact (readCppStyleComment_length s).trans (Nat.le_succ _)
      · exact Nat.le_succ _

theorem readString_escape (e : Byte) (s : Bytes) :
    readString (0x5c :: e :: s) =
      ((readString s).1, 0x5c :: e :: (readString s).2.1, (readString s).2.2) := by
  rw [readString]; rfl

theorem readString_quote (s : Bytes) : readString (0x22 :: s) = (true, [0x22], s) := by
  cases s <;> rfl

theorem readString_char {c : Byte} (h : c ≠ 0x5c) (h' : c ≠ 0x22) (s : Bytes) :
    readString (c :: s) = ((readString s).1, c :: (readString s).2.1, (readString s).2.2) := by
  cases s <;> simp [readString, h, h']

theorem readString_append (s : Bytes) : (readString s).2.1 ++ (readString s).2.2 = s := by
  induction s using readString.induct with
  | case1 => rfl
  | case2 => rfl
  | case3 e s ih => simp [readString_escape, ih]
  | case4 s _ => simp [readString_quote]
  | case5 c s h h' ih => simp [readString_char h h', ih]

theorem readString_length (s : Bytes) : (readString s).2.2.length ≤ s.length := by
  have h := congrArg List.length (readString_append s)
  rw [List.length_append] at h
  omega

theorem readFraction_length (s : Bytes) : (readFraction s).2.length ≤ s.length := by
  unfold readFraction
  split
  · exact (dropWhile_length _ _).trans (Nat.le_succ _)
  · exact Nat.le_refl _

theorem readExponentSign_length (s : Bytes) : (readExponentSign s).2.length ≤ s.length := by
  unfold readExponentSign
  split <;> first | exact Nat.le_succ _ | exact Nat.le_refl _

theorem readExponent_length (s : Bytes) : (readExponent s).2.length ≤ s.length := by
  cases s with
  | nil => exact Nat.le_refl _
  | cons c s =>
    rw [readExponent]
    split
    · exact (dropWhile_length _ _).trans ((readExponentSign_length s).trans (Nat.le_succ _))
    · exact Nat.le_refl _

theorem readNumber_length (s : Bytes) : (readNumber s).2.length ≤ s.length := 
  (readExponent_length _).trans ((readFraction_length _).trans (dropWhile_length _ _))

theorem readSignedNumber_length (sign : Byte) (s : Bytes) :
    (readSignedNumber sign s).2.2.length ≤ s.length := by
  unfold readSignedNumber
  split
  · exact Nat.le_succ _
  · exact readNumber_length s

theorem readLiteral_length (type : TokenType) (pattern s : Bytes) :
    (readLiteral type pattern s).2.2.length ≤ s.length := by
  unfold readLiteral matchPattern
  split
  next heq =>
    split at heq <;> cases heq
    · exact (List.drop_suffix _ _).length_le
    · exact Nat.le_refl _

theorem readToken_of_skipSpaces {s s' : Bytes} {c : Byte} (h : skipSpaces s = c :: s') :
    (readToken s).2.2.length ≤ s'.length := by
  unfold readToken
  simp only [h]
  split
  all_goals first
    | exact Nat.le_refl _
    | exact readString_length s'
    | exact readComment_length s'
    | exact readSignedNumber_length _ s'
    | exact readLiteral_length _ _ s'
    | skip
  split
  · exact readNumber_length s'
  · exact Nat.le_refl _

theorem readToken_of_skipSpaces_nil {s : Bytes} (h : skipSpaces s = []) :
    readToken s = (true, ⟨.endOfStream, []⟩, []) := by
  simp only [readToken, h]

theorem readToken_length (s : Bytes) : (readToken s).2.2.length ≤ s.length := by
  cases h : skipSpaces s with
  | nil => simp [readToken_of_skipSpaces_nil h]
  | cons c s' =>
    have hs : (c :: s').length ≤ s.length := h ▸ dropWhile_length _ s
    exact (readToken_of_skipSpaces h).trans ((Nat.le_succ _).trans hs)

/-- A token other than the end of the stream takes at least one byte. -/
theorem readToken_lt {s : Bytes} (h : (readToken s).2.1.type ≠ .endOfStream) :
    (readToken s).2.2.length < s.length := by
  cases hs : skipSpaces s with
  | nil => rw [readToken_of_skipSpaces_nil hs] at h; exact absurd rfl h
  | cons c s' =>
    have hs' : (c :: s').length ≤ s.length := hs ▸ dropWhile_length _ s
    exact (Nat.lt_succ_of_le (readToken_of_skipSpaces hs)).trans_le hs'

theorem skipCommentTokensFrom_length (n : Nat) (s : Bytes) :
    (skipCommentTokensFrom n s).2.2.length ≤ s.length := by
  induction n generalizing s with
  | zero => exact readToken_length s
  | succ n ih =>
    rw [skipCommentTokensFrom]
    split
    · exact (ih _).trans (readToken_length s)
    · exact readToken_length s

theorem skipCommentTokensFrom_lt {n : Nat} {s : Bytes}
    (h : (skipCommentTokensFrom n s).2.1.type ≠ .endOfStream) :
    (skipCommentTokensFrom n s).2.2.length < s.length := by
  induction n generalizing s with
  | zero => exact readToken_lt h
  | succ n ih =>
    rw [skipCommentTokensFrom] at h ⊢
    split at h
    · next hc => rw [if_pos hc]; exact (ih h).trans_le (readToken_length s)
    · next hc => rw [if_neg hc]; exact readToken_lt h

theorem skipCommentTokens_length {s rest : Bytes} {ok : Bool} {token : Token}
    (h : skipCommentTokens s = (ok, token, rest)) : rest.length ≤ s.length := by
  have hs := skipCommentTokensFrom_length s.length s
  rwa [show skipCommentTokensFrom s.length s = _ from h] at hs

theorem skipCommentTokens_lt {s rest : Bytes} {ok : Bool} {token : Token}
    (h : skipCommentTokens s = (ok, token, rest)) (hne : token.type ≠ .endOfStream) :
    rest.length < s.length := by
  have hs := @skipCommentTokensFrom_lt s.length s
  rw [show skipCommentTokensFrom s.length s = _ from h] at hs
  exact hs hne

theorem skipBom_length (s : Bytes) : (skipBom s).length ≤ s.length := by
  unfold skipBom
  split
  · simp only [List.length_cons]; omega
  · exact Nat.le_refl _

theorem readMemberName_length {s s' : Bytes} {name : Option Bytes}
    (h : readMemberName s = .ok (name, s')) : s'.length < s.length := by
  unfold readMemberName at h
  split at h
  next ok token s₁ heq =>
  have hlt := skipCommentTokens_lt heq
  split at h
  · cases h
  split at h
  · next hend =>
    cases h
    exact hlt (by rw [hend]; decide)
  split at h
  · cases h
  next hstr =>
  obtain ⟨text, -, h⟩ := Outcome.bind_eq_ok.mp h
  split at h
  · cases h
  split at h
  next ok' colon s₂ hcolon =>
  split at h
  · cases h
  cases h
  have hs : s'.length ≤ s₁.length := by simpa [hcolon] using readToken_length s₁
  exact hs.trans_lt (hlt (by rw [not_not.mp hstr]; decide))

theorem readMemberEnd_length {s s' : Bytes} {closed : Bool}
    (h : readMemberEnd s = .ok (closed, s')) : s'.length ≤ s.length := by
  unfold readMemberEnd at h
  split at h
  next ok comma s₁ heq =>
  have hs : s₁.length ≤ s.length := by simpa [heq] using readToken_length s
  split at h
  · cases h
  split at h
  next heq' =>
  cases h
  split at heq'
  · exact (skipCommentTokens_length heq').trans hs
  · cases heq'
    exact hs

theorem readElementEnd_length {s s' : Bytes} {closed : Bool}
    (h : readElementEnd s = .ok (closed, s')) : s'.length < s.length := by
  unfold readElementEnd at h
  split at h
  next ok token s₁ heq =>
  split at h
  · cases h
  next htype =>
  cases h
  refine skipCommentTokens_lt heq fun hend => htype ?_
  simp [hend]


/-! ## Consumption -/

theorem read_length (fuel : Nat) :
    (∀ d s v s', readValue fuel d s = .ok (v, s') → s'.length ≤ s.length) ∧
    (∀ d ms s v s', readObject fuel d ms s = .ok (v, s') → s'.length ≤ s.length) ∧
    (∀ d xs s v s', readArray fuel d xs s = .ok (v, s') → s'.length ≤ s.length) := by
  induction fuel with
  | zero =>
    refine ⟨fun d s v s' h => ?_, fun d ms s v s' h => ?_, fun d xs s v s' h => ?_⟩
    · rw [readValue, readValueAtEnd] at h; split at h <;> cases h
    · rw [readObject] at h; cases h
    · rw [readArray, readValueAtEnd] at h; split at h <;> cases h
  | succ fuel ih =>
    obtain ⟨ihv, iho, iha⟩ := ih
    refine ⟨fun d s v s' h => ?_, fun d ms s v s' h => ?_, fun d xs s v s' h => ?_⟩
    · rw [readValue] at h
      split at h
      · cases h
      split at h
      next ok token rest heq =>
      have hrest := skipCommentTokens_length heq
      split at h
      · exact (iho _ _ _ _ _ h).trans hrest
      split at h
      · exact (iha _ _ _ _ _ h).trans hrest
      obtain ⟨w, -, h⟩ := Outcome.bind_eq_ok.mp h
      cases h
      exact hrest
    · rw [readObject] at h
      obtain ⟨⟨name, s₁⟩, h₁, h⟩ := Outcome.bind_eq_ok.mp h
      have hs₁ := readMemberName_length h₁
      cases name with
      | none => cases h; exact hs₁.le
      | some name =>
        obtain ⟨⟨value, s₂⟩, h₂, h⟩ := Outcome.bind_eq_ok.mp h
        obtain ⟨⟨closed, s₃⟩, h₃, h⟩ := Outcome.bind_eq_ok.mp h
        have hs₃ : s₃.length ≤ s.length :=
          (readMemberEnd_length h₃).trans ((ihv _ _ _ _ h₂).trans hs₁.le)
        cases closed with
        | true => cases h; exact hs₃
        | false => exact (iho _ _ _ _ _ h).trans hs₃
    · rw [readArray] at h
      have hs := dropWhile_length isSpace s
      split at h
      · next s₁ heq =>
        cases h
        rw [show s.dropWhile isSpace = _ from heq] at hs
        exact (Nat.le_succ _).trans hs
      · obtain ⟨⟨value, s₂⟩, h₂, h⟩ := Outcome.bind_eq_ok.mp h
        obtain ⟨⟨closed, s₃⟩, h₃, h⟩ := Outcome.bind_eq_ok.mp h
        have hs₃ : s₃.length ≤ s.length :=
          (readElementEnd_length h₃).le.trans ((ihv _ _ _ _ h₂).trans hs)
        cases closed with
        | true => cases h; exact hs₃
        | false => exact (iha _ _ _ _ _ h).trans hs₃

/-! ## Fuel -/

theorem read_succ_fuel (fuel : Nat) :
    (∀ d s, 2 * s.length ≤ fuel → readValue (fuel + 1) d s = readValue fuel d s) ∧
    (∀ d ms s, 2 * s.length ≤ fuel → readObject (fuel + 1) d ms s = readObject fuel d ms s) ∧
    (∀ d xs s, 2 * s.length + 1 ≤ fuel →
      readArray (fuel + 1) d xs s = readArray fuel d xs s) := by
  induction fuel with
  | zero =>
    refine ⟨fun d s h => ?_, fun d ms s h => ?_, fun d xs s h => absurd h (by omega)⟩
    · obtain rfl := List.length_eq_zero_iff.mp (show s.length = 0 by omega)
      rfl
    · obtain rfl := List.length_eq_zero_iff.mp (show s.length = 0 by omega)
      rfl
  | succ fuel ih =>
    obtain ⟨ihv, iho, iha⟩ := ih
    refine ⟨fun d s h => ?_, fun d ms s h => ?_, fun d xs s h => ?_⟩
    · rw [readValue, readValue]
      split
      · rfl
      split
      next ok token rest heq =>
      have hlt := skipCommentTokens_lt heq
      split
      · next hb =>
        have := hlt (by rw [hb]; decide)
        exact iho _ _ _ (by omega)
      split
      · next hb =>
        have := hlt (by rw [hb]; decide)
        exact iha _ _ _ (by omega)
      rfl
    · rw [readObject, readObject]
      refine Outcome.bind_congr_ok fun ⟨name, s₁⟩ h₁ => ?_
      have hs₁ := readMemberName_length h₁
      cases name with
      | none => rfl
      | some name =>
        dsimp only
        rw [ihv _ _ (by omega)]
        refine Outcome.bind_congr_ok fun ⟨value, s₂⟩ h₂ => Outcome.bind_congr_ok fun ⟨closed, s₃⟩ h₃ => ?_
        have hs₂ : s₂.length ≤ _ := (read_length _).1 _ _ _ _ h₂
        have hs₃ : s₃.length ≤ s₂.length := readMemberEnd_length h₃
        cases closed with
        | true => rfl
        | false => exact iho _ _ _ (show 2 * s₃.length ≤ fuel by omega)
    · rw [readArray, readArray]
      have hs := dropWhile_length isSpace s
      split
      · rfl
      · next s₁ hne =>
        have hs' : (skipSpaces s).length ≤ s.length := hs
        rw [ihv _ _ (by omega)]
        refine Outcome.bind_congr_ok fun ⟨value, s₂⟩ h₂ => Outcome.bind_congr_ok fun ⟨closed, s₃⟩ h₃ => ?_
        have hs₂ : s₂.length ≤ _ := (read_length _).1 _ _ _ _ h₂
        have hs₃ : s₃.length < s₂.length := readElementEnd_length h₃
        cases closed with
        | true => rfl
        | false => exact iha _ _ _ (show 2 * s₃.length + 1 ≤ fuel by omega)

theorem readValue_fuel {fuel : Nat} {s : Bytes} (d : Nat) (h : 2 * s.length ≤ fuel) :
    readValue fuel d s = readValue (2 * s.length) d s := by
  induction fuel, h using Nat.le_induction with
  | base => rfl
  | succ n hn ih => rw [(read_succ_fuel n).1 d s hn, ih]

/-! ## Well-formedness -/

theorem isDigit_le {c : Byte} (h : isDigit c = true) : c.toNat - 0x30 ≤ 9 := by
  simp only [isDigit, Bool.and_eq_true, decide_eq_true_eq] at h
  have := UInt8.le_iff_toNat_le.mp h.2
  simp at this
  omega

theorem decodeDigits_le {threshold maxLastDigit value n : Nat} {s : Bytes}
    (hv : value ≤ threshold * 10 + maxLastDigit)
    (h : decodeDigits threshold maxLastDigit value s = some n) :
    n ≤ threshold * 10 + maxLastDigit := by
  induction s generalizing value with
  | nil => cases h; exact hv
  | cons c s ih =>
    rw [decodeDigits] at h
    split at h
    · cases h
    next hc =>
    have hd := isDigit_le (by simpa using hc)
    dsimp only at h
    split at h
    · cases h
    next hfits =>
    refine ih ?_ h
    rcases Nat.lt_or_ge value threshold with hlt | hge
    · omega
    · have := not_and.mp hfits hge
      omega

theorem decodeDouble_wellFormed {text : Bytes} {v : Value} (h : decodeDouble text = .ok v) :
    v.WellFormed := by
  unfold decodeDouble at h
  split at h <;> cases h
  exact .real _

theorem decodeNumber_wellFormed {text : Bytes} {v : Value} (h : decodeNumber text = .ok v) :
    v.WellFormed := by
  unfold decodeNumber at h
  split at h
  · split at h
    · next value hd =>
      have hle := decodeDigits_le (Nat.zero_le _) hd
      cases h
      exact .int (by omega)
    · exact decodeDouble_wellFormed h
  · split at h
    · next value hd =>
      have hle := decodeDigits_le (Nat.zero_le _) hd
      split at h <;> cases h
      · exact .int (by omega)
      · exact .uint (by omega)
    · exact decodeDouble_wellFormed h

theorem readScalar_wellFormed {token : Token} {v : Value} (h : readScalar token = .ok v) :
    v.WellFormed := by
  unfold readScalar at h
  split at h
  · exact decodeNumber_wellFormed h
  · obtain ⟨s, -, h⟩ := Outcome.bind_eq_ok.mp h
    unfold stringValue Value.ofString at h
    split at h
    · next heq =>
      cases h
      split at heq <;> cases heq
      exact .string _
    · cases h
  all_goals cases h
  · exact .bool _
  · exact .bool _
  · exact .null

/-- A closed property that the scalars in a document have, all values read from it have. -/
theorem read_closed {P : Value → Prop} (hP : Value.Closed P) {n : Nat}
    (hscalar : ∀ {s rest : Bytes} {ok : Bool} {token : Token} {v : Value}, s.length ≤ n →
      skipCommentTokens s = (ok, token, rest) → readScalar token = .ok v → P v) (fuel : Nat) :
    (∀ d s v s', s.length ≤ n → readValue fuel d s = .ok (v, s') → P v) ∧
    (∀ d ms s v s', s.length ≤ n → P (.object ms) → readObject fuel d ms s = .ok (v, s') → P v) ∧
    (∀ d xs s v s', s.length ≤ n → P (.array xs) → readArray fuel d xs s = .ok (v, s') → P v) := by
  induction fuel with
  | zero =>
    refine ⟨fun d s v s' _ h => ?_, fun d ms s v s' _ _ h => ?_, fun d xs s v s' _ _ h => ?_⟩
    · rw [readValue, readValueAtEnd] at h; split at h <;> cases h
    · rw [readObject] at h; cases h
    · rw [readArray, readValueAtEnd] at h; split at h <;> cases h
  | succ fuel ih =>
    obtain ⟨ihv, iho, iha⟩ := ih
    refine ⟨fun d s v s' hs h => ?_, fun d ms s v s' hs hms h => ?_, fun d xs s v s' hs hxs h => ?_⟩
    · rw [readValue] at h
      split at h
      · cases h
      split at h
      next ok token rest heq =>
      have hrest := (skipCommentTokens_length heq).trans hs
      split at h
      · exact iho _ _ _ _ _ hrest hP.empty_object h
      split at h
      · exact iha _ _ _ _ _ hrest hP.empty_array h
      obtain ⟨w, hw, h⟩ := Outcome.bind_eq_ok.mp h
      cases h
      exact hscalar hs heq hw
    · rw [readObject] at h
      obtain ⟨⟨name, s₁⟩, h₁, h⟩ := Outcome.bind_eq_ok.mp h
      cases name with
      | none => cases h; exact hms
      | some name =>
        obtain ⟨⟨value, s₂⟩, h₂, h⟩ := Outcome.bind_eq_ok.mp h
        obtain ⟨⟨closed, s₃⟩, h₃, h⟩ := Outcome.bind_eq_ok.mp h
        have hs₁ := (readMemberName_length h₁).le.trans hs
        have hs₂ : s₂.length ≤ n := ((read_length _).1 _ _ _ _ h₂).trans hs₁
        have hms' := hP.insert name hms (ihv _ _ _ _ hs₁ h₂)
        cases closed with
        | true => cases h; exact hms'
        | false => exact iho _ _ _ _ _ ((readMemberEnd_length h₃).trans hs₂) hms' h
    · rw [readArray] at h
      have hs₁ : (skipSpaces s).length ≤ n := (dropWhile_length isSpace s).trans hs
      split at h
      · cases h; exact hxs
      · obtain ⟨⟨value, s₂⟩, h₂, h⟩ := Outcome.bind_eq_ok.mp h
        obtain ⟨⟨closed, s₃⟩, h₃, h⟩ := Outcome.bind_eq_ok.mp h
        have hs₂ : s₂.length ≤ n := ((read_length _).1 _ _ _ _ h₂).trans hs₁
        have hxs' := hP.push hxs (ihv _ _ _ _ hs₁ h₂)
        cases closed with
        | true => cases h; exact hxs'
        | false => exact iha _ _ _ _ _ ((readElementEnd_length h₃).le.trans hs₂) hxs' h

/-! ## Kinds of values -/

theorem readArray_isArray {fuel d : Nat} {xs : List Value} {s s' : Bytes} {v : Value}
    (h : readArray fuel d xs s = .ok (v, s')) : ∃ xs', v = .array xs' := by
  induction fuel generalizing xs s with
  | zero => rw [readArray, readValueAtEnd] at h; split at h <;> cases h
  | succ fuel ih =>
    rw [readArray] at h
    split at h
    · cases h; exact ⟨xs, rfl⟩
    obtain ⟨⟨value, s₂⟩, -, h⟩ := Outcome.bind_eq_ok.mp h
    obtain ⟨⟨closed, s₃⟩, -, h⟩ := Outcome.bind_eq_ok.mp h
    cases closed with
    | true => cases h; exact ⟨_, rfl⟩
    | false => exact ih h

theorem readScalar_ne_object {token : Token} {v : Value} (h : readScalar token = .ok v)
    (ms : Members) : v ≠ .object ms := by
  rintro rfl
  have hdouble : ∀ {text : Bytes}, decodeDouble text ≠ .ok (.object ms) := by
    intro text h
    unfold decodeDouble at h
    split at h <;> cases h
  unfold readScalar at h
  split at h
  · unfold decodeNumber at h
    split at h <;> split at h
    · cases h
    · exact hdouble h
    · split at h <;> cases h
    · exact hdouble h
  · obtain ⟨str, -, h⟩ := Outcome.bind_eq_ok.mp h
    unfold stringValue Value.ofString at h
    split at h
    · next heq => split at heq <;> cases heq; cases h
    · cases h
  all_goals cases h

/-! ## Faults -/

theorem decodeUnicodeEscapeSequence_fault {s : Bytes} {f : Fault} :
    decodeUnicodeEscapeSequence s ≠ .error (.fault f) := by
  intro h
  unfold decodeUnicodeEscapeSequence at h
  split at h
  · cases h
  · split at h <;> cases h

theorem decodeUnicodeCodePoint_fault {s : Bytes} {f : Fault} :
    decodeUnicodeCodePoint s ≠ .error (.fault f) := by
  intro h
  rcases Outcome.bind_eq_error.mp h with h | ⟨unicode, -, h⟩
  · exact decodeUnicodeEscapeSequence_fault h
  split at h
  · dsimp only at h
    split at h
    · cases h
    split at h
    · rcases Outcome.bind_eq_error.mp h with h | ⟨_, -, h⟩
      · exact decodeUnicodeEscapeSequence_fault h
      · cases h
    · cases h
  · cases h

@[simp] theorem decodeChars_skip (skip : Nat) (c : Byte) (s : Bytes) :
    decodeChars (skip + 1) (c :: s) = decodeChars skip s := by
  rw [decodeChars]

theorem decodeChars_quote (s : Bytes) : decodeChars 0 (0x22 :: s) = .ok [] := by
  cases s <;> simp [decodeChars]

theorem decodeChars_unicode (s : Bytes) :
    decodeChars 0 (0x5c :: 0x75 :: s) = (do
      let (unicode, taken) ← decodeUnicodeCodePoint s
      return codePointToUTF8 unicode ++ (← decodeChars taken s)) := by
  simp [decodeChars]

theorem decodeChars_escape {e b : Byte} (he : e ≠ 0x75) (hb : simpleEscape e = some b)
    (s : Bytes) : decodeChars 0 (0x5c :: e :: s) = (do return b :: (← decodeChars 0 s)) := by
  simp [decodeChars, he, hb]

theorem decodeChars_char {c : Byte} (h : c ≠ 0x22) (h' : c ≠ 0x5c) (s : Bytes) :
    decodeChars 0 (c :: s) = (do return c :: (← decodeChars 0 s)) := by
  cases s <;> simp [decodeChars, h, h']

theorem decodeChars_fault {skip : Nat} {s : Bytes} {f : Fault} :
    decodeChars skip s ≠ .error (.fault f) := by
  have cons : ∀ {b : Byte} {x : ReadM Bytes}, x ≠ .error (.fault f) →
      (do return b :: (← x) : ReadM Bytes) ≠ .error (.fault f) := by
    intro b x hx h
    rcases Outcome.bind_eq_error.mp h with h | ⟨_, -, h⟩
    · exact hx h
    · cases h
  induction skip, s using decodeChars.induct with
  | case1 skip => cases skip <;> exact nofun
  | case2 skip c s ih => rw [decodeChars_skip]; exact ih
  | case3 s => rw [decodeChars_quote]; exact nofun
  | case4 => exact nofun
  | case5 s _ ih =>
    rw [decodeChars_unicode]
    intro h
    rcases Outcome.bind_eq_error.mp h with h | ⟨⟨unicode, taken⟩, -, h⟩
    · exact decodeUnicodeCodePoint_fault h
    rcases Outcome.bind_eq_error.mp h with h | ⟨_, -, h⟩
    · exact ih taken (by rw [decodeChars_skip]; exact h)
    · cases h
  | case6 e s he b hb _ ih =>
    rw [decodeChars_escape he hb]
    exact cons (by simpa using ih)
  | case7 e s he hb _ => simp [decodeChars, he, hb, addError]
  | case8 c s h h' ih =>
    rw [decodeChars_char h h']
    exact cons ih

theorem decodeNumber_fault {text : Bytes} {f : Fault} : decodeNumber text ≠ .error (.fault f) := by
  have hdouble : ∀ {text : Bytes}, decodeDouble text ≠ .error (.fault f) := by
    intro text h
    unfold decodeDouble at h
    split at h <;> cases h
  intro h
  unfold decodeNumber at h
  split at h <;> split at h
  all_goals first | cases h | exact absurd h hdouble

/-- A fault of the reader is an exception. -/
theorem readScalar_fault {token : Token} {f : Fault} (h : readScalar token = .error (.fault f)) :
    ∃ what, f = .exception what := by
  unfold readScalar at h
  split at h
  · exact absurd h decodeNumber_fault
  · rcases Outcome.bind_eq_error.mp h with h | ⟨s, -, h⟩
    · exact absurd h decodeChars_fault
    · unfold stringValue Value.ofString at h
      split at h
      · cases h
      · next heq =>
        cases h
        split at heq <;> cases heq
        exact ⟨_, rfl⟩
  all_goals cases h

theorem readMemberName_fault {s : Bytes} {f : Fault} (h : readMemberName s = .error (.fault f)) :
    ∃ what, f = .exception what := by
  unfold readMemberName at h
  split at h
  split at h
  · cases h
  split at h
  · cases h
  split at h
  · cases h
  rcases Outcome.bind_eq_error.mp h with h | ⟨name, -, h⟩
  · exact absurd h decodeChars_fault
  split at h
  · cases h
    exact ⟨_, rfl⟩
  split at h
  split at h <;> cases h

theorem readMemberEnd_fault {s : Bytes} {f : Fault} : readMemberEnd s ≠ .error (.fault f) := by
  intro h
  unfold readMemberEnd at h
  split at h
  split at h
  · cases h
  · split at h
    cases h

theorem readElementEnd_fault {s : Bytes} {f : Fault} : readElementEnd s ≠ .error (.fault f) := by
  intro h
  unfold readElementEnd at h
  split at h
  split at h <;> cases h

theorem readValueAtEnd_fault {α : Type} {d : Nat} {f : Fault}
    (h : (readValueAtEnd d : ReadM α) = .error (.fault f)) : ∃ what, f = .exception what := by
  unfold readValueAtEnd at h
  split at h <;> cases h
  exact ⟨_, rfl⟩

theorem read_fault (fuel : Nat) :
    (∀ d s f, readValue fuel d s = .error (.fault f) → ∃ what, f = .exception what) ∧
    (∀ d ms s f, readObject fuel d ms s = .error (.fault f) → ∃ what, f = .exception what) ∧
    (∀ d xs s f, readArray fuel d xs s = .error (.fault f) → ∃ what, f = .exception what) := by
  induction fuel with
  | zero =>
    refine ⟨fun d s f h => ?_, fun d ms s f h => ?_, fun d xs s f h => ?_⟩
    · rw [readValue] at h; exact readValueAtEnd_fault h
    · rw [readObject] at h; cases h
    · rw [readArray] at h; exact readValueAtEnd_fault h
  | succ fuel ih =>
    obtain ⟨ihv, iho, iha⟩ := ih
    refine ⟨fun d s f h => ?_, fun d ms s f h => ?_, fun d xs s f h => ?_⟩
    · rw [readValue] at h
      split at h
      · cases h; exact ⟨_, rfl⟩
      split at h
      split at h
      · exact iho _ _ _ _ h
      split at h
      · exact iha _ _ _ _ h
      rcases Outcome.bind_eq_error.mp h with h | ⟨_, -, h⟩
      · exact readScalar_fault h
      · cases h
    · rw [readObject] at h
      rcases Outcome.bind_eq_error.mp h with h | ⟨⟨name, s₁⟩, -, h⟩
      · exact readMemberName_fault h
      cases name with
      | none => cases h
      | some name =>
        rcases Outcome.bind_eq_error.mp h with h | ⟨⟨value, s₂⟩, -, h⟩
        · exact ihv _ _ _ h
        rcases Outcome.bind_eq_error.mp h with h | ⟨⟨closed, s₃⟩, -, h⟩
        · exact absurd h readMemberEnd_fault
        cases closed with
        | true => cases h
        | false => exact iho _ _ _ _ h
    · rw [readArray] at h
      split at h
      · cases h
      rcases Outcome.bind_eq_error.mp h with h | ⟨⟨value, s₂⟩, -, h⟩
      · exact ihv _ _ _ h
      rcases Outcome.bind_eq_error.mp h with h | ⟨⟨closed, s₃⟩, -, h⟩
      · exact absurd h readElementEnd_fault
      cases closed with
      | true => cases h
      | false => exact iha _ _ _ _ h

end RocksdbService.Json.OurReader

namespace RocksdbService.Json

theorem parseFromStream_eq_ok {doc : Bytes} {root : Value}
    (h : parseFromStream doc = .ok (.ok root)) : ∃ rest, OurReader.parse doc = .ok (root, rest) := by
  unfold parseFromStream at h
  split at h <;> cases h
  exact ⟨_, by assumption⟩

/-- The root of an accepted document is well formed. -/
theorem parseFromStream_wellFormed {doc : Bytes} {root : Value}
    (h : parseFromStream doc = .ok (.ok root)) : root.WellFormed := by
  obtain ⟨rest, h⟩ := parseFromStream_eq_ok h
  exact (OurReader.read_closed Value.WellFormed.closed
    (fun _ _ h => OurReader.readScalar_wellFormed h) _).1 _ _ _ _ (Nat.le_refl _) h

theorem parseFromStream_fault {doc : Bytes} {f : Fault} (h : parseFromStream doc = .error f) :
    ∃ what, f = .exception what := by
  unfold parseFromStream at h
  split at h <;> cases h
  next heq => exact (OurReader.read_fault _).1 _ _ _ heq

end RocksdbService.Json
