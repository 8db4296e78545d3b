import RocksdbService.Verify.Tokens

/-! # The reader on the documents of JSON

The reader accepts every document of the standard grammar whose values are nested at most `stackLimit`
deep, with the value that the grammar gives it, and throws on any deeper one
(`parseFromStream_document`). What it accepts beyond the grammar is not said here. -/

namespace RocksdbService.Json

open OurReader

/-! ## Values -/

/-- What the reader makes of a value nested `depth` deep. -/
def within (depth : Nat) {α : Type} (x : α) : ReadM α :=
  if depth ≤ stackLimit + 1 then .ok x
  else throwRuntimeError "Exceeded stackLimit in readValue()."

theorem within_of_le {depth : Nat} {α : Type} {x : α} (h : depth ≤ stackLimit + 1) :
    within depth x = .ok x := if_pos h

theorem within_bind {α β : Type} {m k : Nat} {x : α} {y : β} {f : α → ReadM β}
    (h : f x = within k y) : (within m x >>= f) = within (max m k) y := by
  unfold within at h ⊢
  by_cases hm : m ≤ stackLimit + 1
  · rw [if_pos hm, Outcome.ok_bind, h]
    by_cases hk : k ≤ stackLimit + 1
    · rw [if_pos hk, if_pos (Nat.max_le.mpr ⟨hm, hk⟩)]
    · rw [if_neg hk, if_neg fun h => hk (Nat.max_le.mp h).2]
  · rw [if_neg hm, if_neg fun h => hm (Nat.max_le.mp h).1]
    rfl

theorem within_map {α β : Type} {m : Nat} {x : α} {y : β} {f : α → ReadM β} (h : f x = .ok y) :
    (within m x >>= f) = within m y := by
  unfold within
  split
  · rw [Outcome.ok_bind, h]
  · rfl

theorem Blank.ends (w : Blank) {c : Byte} (hc : c = 0x2c ∨ c = 0x5d ∨ c = 0x7d) (s : Bytes) :
    Ends (w.bytes ++ c :: s) := by
  obtain ⟨bytes, blank⟩ := w
  intro d hd
  cases bytes with
  | nil =>
    cases hd
    rcases hc with rfl | rfl | rfl <;> decide
  | cons b bytes =>
    cases hd
    have hb := blank d List.mem_cons_self
    simp only [isSpace, Bool.or_eq_true, decide_eq_true_eq] at hb
    rcases hb with ((rfl | rfl) | rfl) | rfl <;> decide

theorem readElementEnd_blank (w : Blank) (s : Bytes) :
    readElementEnd (w.bytes ++ 0x2c :: s) = .ok (false, s) ∧
      readElementEnd (w.bytes ++ 0x5d :: s) = .ok (true, s) := by
  have hcomma : readToken (w.bytes ++ 0x2c :: s) = (true, ⟨.arraySeparator, []⟩, s) :=
    readToken_blank w _
  have hend : readToken (w.bytes ++ 0x5d :: s) = (true, ⟨.arrayEnd, []⟩, s) := readToken_blank w _
  unfold readElementEnd
  rw [skipCommentTokens_of_token hcomma (by decide), skipCommentTokens_of_token hend (by decide)]
  exact ⟨rfl, rfl⟩

theorem readMemberEnd_blank (w : Blank) (s : Bytes) :
    readMemberEnd (w.bytes ++ 0x2c :: s) = .ok (false, s) ∧
      readMemberEnd (w.bytes ++ 0x7d :: s) = .ok (true, s) := by
  unfold readMemberEnd
  rw [readToken_blank, readToken_blank]
  exact ⟨rfl, rfl⟩

theorem readMemberName_text (before colon : Blank) (q : Quoted maxNameLength) (s : Bytes) :
    readMemberName (before.bytes ++ (q.text ++ (colon.bytes ++ 0x3a :: s))) =
      .ok (some q.bytes, s) := by
  have hname := (readToken_blank before _).trans (readToken_text q (colon.bytes ++ 0x3a :: s))
  have hcolon : readToken (colon.bytes ++ 0x3a :: s) = (true, ⟨.memberSeparator, []⟩, s) :=
    readToken_blank colon _
  have hfits : q.bytes.length ≤ 2 ^ 30 - 1 := q.fits
  unfold readMemberName
  rw [skipCommentTokens_of_token hname (by decide)]
  dsimp only
  rw [if_neg (by decide), if_neg (by decide), if_neg (by decide), q.decodeString_text,
    Outcome.ok_bind, if_neg (by omega), hcolon]
  rfl

/-- A value that is a token by itself. -/
theorem readValue_scalar (fuel : Nat) {depth : Nat} {s rest text : Bytes} {type : TokenType}
    {v : Value} (hs : readToken s = (true, ⟨type, text⟩, rest))
    (htype : type ≠ .comment ∧ type ≠ .objectBegin ∧ type ≠ .arrayBegin)
    (hv : readScalar ⟨type, text⟩ = .ok v) :
    readValue (fuel + 1) depth s = within (depth + 1) (v, rest) := by
  rw [readValue, skipCommentTokens_of_token hs htype.1]
  dsimp only
  rw [if_neg htype.2.1, if_neg htype.2.2, hv]
  unfold within
  by_cases hd : stackLimit < depth
  · rw [if_pos hd, if_neg (by omega)]
  · rw [if_neg hd, if_pos (by omega)]
    rfl

/-- The text of a value begins with a character that is neither white space nor a closing bracket. -/
theorem Doc.text_head (d : Doc) : ∃ c s, d.text = c :: s ∧ isSpace c = false ∧ c ≠ 0x5d ∧ c ≠ 0xef := by
  cases d with
  | null => exact ⟨_, _, rfl, by decide⟩
  | bool b => cases b <;> exact ⟨_, _, rfl, by decide⟩
  | string s => exact ⟨_, _, rfl, by decide⟩
  | emptyArray w => exact ⟨_, _, rfl, by decide⟩
  | array xs => exact ⟨_, _, rfl, by decide⟩
  | emptyObject w => exact ⟨_, _, rfl, by decide⟩
  | object ms => exact ⟨_, _, rfl, by decide⟩
  | number n =>
    obtain ⟨c, ds, hwhole⟩ := List.exists_cons_of_ne_nil n.hne
    have hc := n.hwhole c (hwhole ▸ List.mem_cons_self)
    rw [text, n.text_eq, hwhole]
    cases n.neg with
    | true => exact ⟨_, _, rfl, by decide⟩
    | false =>
      refine ⟨c, _, rfl, not_isSpace_digit hc, ?_, ?_⟩ <;> rintro rfl <;> exact absurd hc (by decide)

theorem Doc.skipSpaces_text (d : Doc) (before : Blank) (s : Bytes) :
    skipSpaces (before.bytes ++ (d.text ++ s)) = d.text ++ s := by
  obtain ⟨c, t, htext, hc, -⟩ := d.text_head
  rw [before.skipSpaces, htext]
  exact List.dropWhile_cons_of_neg (by rw [hc]; exact Bool.false_ne_true)

theorem readArray_text (fuel depth : Nat) (ys : List Value) (before : Blank) (d : Doc) (s : Bytes) :
    readArray (fuel + 1) depth ys (before.bytes ++ (d.text ++ s)) = (do
      let (value, s₂) ← readValue fuel (depth + 1) (d.text ++ s)
      let (closed, s₃) ← readElementEnd s₂
      if closed then return (.array (ys ++ [value]), s₃)
      else readArray fuel depth (ys ++ [value]) s₃) := by
  obtain ⟨c, t, htext, -, hc, -⟩ := d.text_head
  rw [readArray, d.skipSpaces_text before, htext, List.cons_append]
  split
  · next heq => cases heq; exact absurd rfl hc
  · rfl

/-- An array whose brackets hold only white space. -/
theorem readArray_blank (fuel depth : Nat) (w : Blank) (rest : Bytes) :
    readArray (fuel + 1) depth [] (w.bytes ++ 0x5d :: rest) = .ok (.array [], rest) := by
  rw [readArray, w.skipSpaces]
  rfl

theorem readObject_blank (fuel depth : Nat) (w : Blank) (rest : Bytes) :
    readObject (fuel + 1) depth [] (w.bytes ++ 0x7d :: rest) = .ok (.object [], rest) := by
  have hend : readToken (w.bytes ++ 0x7d :: rest) = (true, ⟨.objectEnd, []⟩, rest) :=
    readToken_blank w _
  rw [readObject, readMemberName, skipCommentTokens_of_token hend (by decide)]
  rfl

/-- What the value of an array or an object is within the values around it. -/
theorem readValue_bracket (object : Bool) {fuel depth m : Nat} {s rest rest' : Bytes} {v : Value}
    (hs : readToken s = (true, ⟨if object then .objectBegin else .arrayBegin, []⟩, rest'))
    (hm : depth + 1 ≤ m)
    (h : depth ≤ stackLimit →
      (if object then readObject fuel depth [] rest' else readArray fuel depth [] rest') =
        within m (v, rest)) : readValue (fuel + 1) depth s = within m (v, rest) := by
  have htype : (if object then TokenType.objectBegin else .arrayBegin) ≠ .comment := by
    cases object <;> decide
  rw [readValue, skipCommentTokens_of_token hs htype]
  dsimp only
  by_cases hd : stackLimit < depth
  · rw [if_pos hd]
    unfold within
    rw [if_neg (by omega)]
  · rw [if_neg hd]
    cases object <;> exact h (Nat.not_lt.mp hd)

theorem Doc.text_length_pos (d : Doc) : 0 < d.text.length := by
  obtain ⟨c, s, htext, -⟩ := d.text_head
  rw [htext]
  exact Nat.succ_pos _

mutual

theorem Doc.read : (d : Doc) → ∀ {fuel depth : Nat} (w : Blank) {rest : Bytes},
    2 * d.text.length ≤ fuel + 1 → Ends rest →
      readValue (fuel + 1) depth (w.bytes ++ (d.text ++ rest)) =
        within (depth + d.depth) (d.value, rest)
  | .null, fuel, depth, w, rest, _, _ =>
    readValue_scalar fuel ((readToken_blank w _).trans (readToken_null rest)) (by decide) rfl
  | .bool true, fuel, depth, w, rest, _, _ =>
    readValue_scalar fuel ((readToken_blank w _).trans (readToken_true rest)) (by decide) rfl
  | .bool false, fuel, depth, w, rest, _, _ =>
    readValue_scalar fuel ((readToken_blank w _).trans (readToken_false rest)) (by decide) rfl
  | .number n, fuel, depth, w, rest, _, hrest =>
    readValue_scalar fuel ((readToken_blank w _).trans (n.readToken_text hrest)) (by decide)
      n.decodeNumber_text
  | .string s, fuel, depth, w, rest, _, _ => by
    refine readValue_scalar fuel ((readToken_blank w _).trans (readToken_text s rest)) (by decide) ?_
    rw [readScalar]
    dsimp only
    rw [s.decodeString_text, Outcome.ok_bind, stringValue, Value.ofString_eq_ok (s := s.bytes) s.fits]
    rfl
  | .emptyArray inner, fuel, depth, w, rest, hfuel, _ => by
    have hread : readToken (w.bytes ++ ((Doc.emptyArray inner).text ++ rest)) =
        (true, ⟨.arrayBegin, []⟩, inner.bytes ++ 0x5d :: rest) := by
      rw [readToken_blank, Doc.text, List.append_assoc]
      rfl
    rw [Doc.text, List.length_append, List.length_cons, List.length_cons] at hfuel
    obtain ⟨fuel, rfl⟩ := Nat.exists_eq_add_of_le' (by omega : 1 ≤ fuel)
    refine readValue_bracket false hread (Nat.le_refl _) fun hd => ?_
    exact (readArray_blank fuel depth inner rest).trans (within_of_le (Nat.succ_le_succ hd)).symm
  | .array xs, fuel, depth, w, rest, hfuel, _ => by
    have hread : readToken (w.bytes ++ ((Doc.array xs).text ++ rest)) =
        (true, ⟨.arrayBegin, []⟩, xs.text ++ 0x5d :: rest) := by
      rw [readToken_blank, Doc.text, List.append_assoc]
      rfl
    rw [Doc.text, List.length_append, List.length_cons, List.length_singleton] at hfuel
    obtain ⟨fuel, rfl⟩ := Nat.exists_eq_add_of_le' (by omega : 1 ≤ fuel)
    rw [Doc.depth, Nat.add_comm xs.depth, ← Nat.add_assoc]
    refine readValue_bracket false hread (Nat.le_add_right _ _) fun _ => ?_
    exact xs.read depth [] rest (by omega)
  | .emptyObject inner, fuel, depth, w, rest, hfuel, _ => by
    have hread : readToken (w.bytes ++ ((Doc.emptyObject inner).text ++ rest)) =
        (true, ⟨.objectBegin, []⟩, inner.bytes ++ 0x7d :: rest) := by
      rw [readToken_blank, Doc.text, List.append_assoc]
      rfl
    rw [Doc.text, List.length_append, List.length_cons, List.length_cons] at hfuel
    obtain ⟨fuel, rfl⟩ := Nat.exists_eq_add_of_le' (by omega : 1 ≤ fuel)
    refine readValue_bracket true hread (Nat.le_refl _) fun hd => ?_
    exact (readObject_blank fuel depth inner rest).trans (within_of_le (Nat.succ_le_succ hd)).symm
  | .object ms, fuel, depth, w, rest, hfuel, _ => by
    have hread : readToken (w.bytes ++ ((Doc.object ms).text ++ rest)) =
        (true, ⟨.objectBegin, []⟩, ms.text ++ 0x7d :: rest) := by
      rw [readToken_blank, Doc.text, List.append_assoc]
      rfl
    rw [Doc.text, List.length_append, List.length_cons, List.length_singleton] at hfuel
    obtain ⟨fuel, rfl⟩ := Nat.exists_eq_add_of_le' (by omega : 1 ≤ fuel)
    rw [Doc.depth, Nat.add_comm ms.depth, ← Nat.add_assoc]
    refine readValue_bracket true hread (Nat.le_add_right _ _) fun _ => ?_
    exact ms.read depth [] rest (by omega)

theorem Elements.read : (xs : Elements) → ∀ {fuel : Nat} (depth : Nat) (ys : List Value) (rest : Bytes),
    2 * xs.text.length ≤ fuel →
      readArray (fuel + 1) depth ys (xs.text ++ 0x5d :: rest) =
        within (depth + 1 + xs.depth) (.array (ys ++ xs.values), rest)
  | .last before d after, fuel, depth, ys, rest, hfuel => by
    have hpos := d.text_length_pos
    simp only [Elements.text, List.length_append] at hfuel
    obtain ⟨fuel, rfl⟩ := Nat.exists_eq_add_of_le' (by omega : 1 ≤ fuel)
    have hvalue : readValue (fuel + 1) (depth + 1) (d.text ++ (after.bytes ++ 0x5d :: rest)) = _ :=
      d.read {} (by omega) (after.ends (.inr (.inl rfl)) rest)
    rw [Elements.text, List.append_assoc, List.append_assoc, readArray_text, hvalue]
    apply within_map
    dsimp only
    rw [(readElementEnd_blank after rest).2]
    rfl
  | .cons before d after xs, fuel, depth, ys, rest, hfuel => by
    have hpos := d.text_length_pos
    simp only [Elements.text, List.length_append, List.length_cons] at hfuel
    obtain ⟨fuel, rfl⟩ := Nat.exists_eq_add_of_le' (by omega : 1 ≤ fuel)
    have hvalue : readValue (fuel + 1) (depth + 1)
        (d.text ++ (after.bytes ++ 0x2c :: (xs.text ++ 0x5d :: rest))) = _ :=
      d.read {} (by omega) (after.ends (.inl rfl) _)
    have hrest := xs.read depth (ys ++ [d.value]) rest (by omega : _ ≤ fuel)
    have htext : (Elements.cons before d after xs).text ++ 0x5d :: rest =
        before.bytes ++ (d.text ++ (after.bytes ++ 0x2c :: (xs.text ++ 0x5d :: rest))) := by
      simp only [Elements.text, List.append_assoc, List.cons_append]
    rw [htext, readArray_text, hvalue, Elements.depth, ← Nat.add_max_add_left]
    apply within_bind
    dsimp only
    rw [(readElementEnd_blank after _).1, Outcome.ok_bind]
    dsimp only
    rw [if_neg Bool.false_ne_true, hrest, List.append_assoc]
    rfl

theorem DocMembers.read : (ms : DocMembers) → ∀ {fuel : Nat} (depth : Nat) (ns : Members) (rest : Bytes),
    2 * ms.text.length ≤ fuel →
      readObject (fuel + 1) depth ns (ms.text ++ 0x7d :: rest) =
        within (depth + 1 + ms.depth) (.object (OrdMap.insertAll ns ms.members), rest)
  | .last before name colon before' d after, fuel, depth, ns, rest, hfuel => by
    have hpos := d.text_length_pos
    simp only [DocMembers.text, List.length_append, List.length_cons] at hfuel
    obtain ⟨fuel, rfl⟩ := Nat.exists_eq_add_of_le' (by omega : 1 ≤ fuel)
    have hvalue : readValue (fuel + 1) (depth + 1)
        (before'.bytes ++ (d.text ++ (after.bytes ++ 0x7d :: rest))) = _ :=
      d.read before' (by omega) (after.ends (.inr (.inr rfl)) rest)
    have htext : (DocMembers.last before name colon before' d after).text ++ 0x7d :: rest =
        before.bytes ++ (name.text ++ (colon.bytes ++ 0x3a ::
          (before'.bytes ++ (d.text ++ (after.bytes ++ 0x7d :: rest))))) := by
      simp only [DocMembers.text, List.append_assoc, List.cons_append]
    rw [htext, readObject, readMemberName_text, Outcome.ok_bind]
    dsimp only
    rw [hvalue]
    apply within_map
    dsimp only
    rw [(readMemberEnd_blank after rest).2]
    rfl
  | .cons before name colon before' d after ms, fuel, depth, ns, rest, hfuel => by
    have hpos := d.text_length_pos
    simp only [DocMembers.text, List.length_append, List.length_cons] at hfuel
    obtain ⟨fuel, rfl⟩ := Nat.exists_eq_add_of_le' (by omega : 1 ≤ fuel)
    have hvalue : readValue (fuel + 1) (depth + 1)
        (before'.bytes ++ (d.text ++ (after.bytes ++ 0x2c :: (ms.text ++ 0x7d :: rest)))) = _ :=
      d.read before' (by omega) (after.ends (.inl rfl) _)
    have hrest := ms.read depth (OrdMap.insert ns name.bytes d.value) rest (by omega : _ ≤ fuel)
    have htext : (DocMembers.cons before name colon before' d after ms).text ++ 0x7d :: rest =
        before.bytes ++ (name.text ++ (colon.bytes ++ 0x3a ::
          (before'.bytes ++ (d.text ++ (after.bytes ++ 0x2c :: (ms.text ++ 0x7d :: rest)))))) := by
      simp only [DocMembers.text, List.append_assoc, List.cons_append]
    rw [htext, readObject, readMemberName_text, Outcome.ok_bind]
    dsimp only
    rw [hvalue, DocMembers.depth, ← Nat.add_max_add_left]
    apply within_bind
    dsimp only
    rw [(readMemberEnd_blank after _).1, Outcome.ok_bind]
    dsimp only
    rw [if_neg Bool.false_ne_true, hrest]
    rfl

end

/-! ## Documents -/

theorem skipBom_document (D : Document) :
    skipBom D.text = D.before.bytes ++ (D.root.text ++ D.after.bytes) := by
  have hhead : ∀ c ∈ (D.before.bytes ++ (D.root.text ++ D.after.bytes)).head?, c ≠ 0xef := by
    intro c hc
    cases hb : D.before.bytes with
    | nil =>
      obtain ⟨d, s, htext, -, -, hd⟩ := D.root.text_head
      rw [hb, htext] at hc
      cases hc
      exact hd
    | cons b bs =>
      rw [hb] at hc
      cases hc
      rintro rfl
      exact absurd (D.before.blank 0xef (hb ▸ List.mem_cons_self)) (by decide)
  rw [Document.text, List.append_assoc, List.append_assoc]
  cases D.mark with
  | true => rfl
  | false =>
    rw [if_neg Bool.false_ne_true, List.nil_append]
    unfold skipBom
    split
    · next heq => rw [heq] at hhead; exact absurd rfl (hhead _ rfl)
    · rfl

theorem Blank.ends_nil (w : Blank) : Ends w.bytes := by
  intro c hc
  have hb := w.blank c (List.mem_of_mem_head? hc)
  simp only [isSpace, Bool.or_eq_true, decide_eq_true_eq] at hb
  rcases hb with ((rfl | rfl) | rfl) | rfl <;> decide

theorem parse_document (D : Document) :
    parse D.text = within (1 + D.root.depth) (D.root.value, D.after.bytes) := by
  have hpos := D.root.text_length_pos
  unfold parse
  dsimp only
  rw [skipBom_document]
  obtain ⟨n, hn⟩ := Nat.exists_eq_add_of_le'
    (by simp only [List.length_append]; omega :
      1 ≤ 2 * (D.before.bytes ++ (D.root.text ++ D.after.bytes)).length)
  rw [hn]
  refine D.root.read D.before ?_ D.after.ends_nil
  rw [← hn]
  simp only [List.length_append]
  omega

theorem parseFromStream_within {text rest : Bytes} {depth : Nat} {v : Value}
    (h : parse text = within (1 + depth) (v, rest)) : parseFromStream text =
      if depth ≤ stackLimit then .ok (.ok v)
      else .error (.exception "Exceeded stackLimit in readValue().") := by
  unfold parseFromStream
  rw [h]
  unfold within
  by_cases h : depth ≤ stackLimit
  · rw [if_pos (by omega), if_pos h]
  · rw [if_neg (by omega), if_neg h]
    rfl

end RocksdbService.Json
