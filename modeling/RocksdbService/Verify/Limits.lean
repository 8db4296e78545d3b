import Mathlib.Computability.StateTransition
import RocksdbService.Verify.Reader

/-! # When the reader throws

The reader throws where it would read a value inside `stackLimit` open brackets, a member name of
`2 ^ 30` bytes, or a string that a `Value` cannot hold. Where it comes to is said here without the
reader, by a machine that goes from place to place in the document and remembers the brackets that
are open. The recursive reader follows it (`read_follows`), so it throws exactly if the machine comes
to such a place (`parseFromStream_returns_iff`). -/

namespace RocksdbService.Json.OurReader

open StateTransition (Reaches)

inductive Bracket
  | object
  | array

/-- A place in a document, with the brackets open there and the bytes from there on. -/
inductive Place
  /-- A value is due. -/
  | value (brackets : List Bracket) (s : Bytes)
  /-- A member or an element is due, or the closing bracket. -/
  | item (bracket : Bracket) (brackets : List Bracket) (s : Bytes)
  /-- A value has just ended. -/
  | after (brackets : List Bracket) (s : Bytes)

namespace Place

/-- The place that follows. -/
def next : Place → Option Place
  | value brackets s =>
    if stackLimit ≤ brackets.length then none
    else
      let (_, token, rest) := skipCommentTokens s
      if token.type = .objectBegin then some (item .object brackets rest)
      else if token.type = .arrayBegin then some (item .array brackets rest)
      else
        match readScalar token with
        | .ok _ => some (after brackets rest)
        | .error _ => none
  | item .object brackets s =>
    match readMemberName s with
    | .ok (none, s) => some (after brackets s)
    | .ok (some _, s) => some (value (.object :: brackets) s)
    | .error _ => none
  | item .array brackets s =>
    match skipSpaces s with
    | 0x5d :: s => some (after brackets s)
    | s => some (value (.array :: brackets) s)
  | after [] _ => none
  | after (.object :: brackets) s =>
    match readMemberEnd s with
    | .ok (true, s) => some (after brackets s)
    | .ok (false, s) => some (item .object brackets s)
    | .error _ => none
  | after (.array :: brackets) s =>
    match readElementEnd s with
    | .ok (true, s) => some (after brackets s)
    | .ok (false, s) => some (item .array brackets s)
    | .error _ => none

/-- The token is a string of more bytes than a `Value` can hold (the length is cast to 32 bits). -/
def LongString (token : Token) : Prop :=
  token.type = .string ∧
    ∃ str, decodeString token.text = .ok str ∧ maxStringLength < str.length % 2 ^ 32

/-- The token is a member name of `2 ^ 30` bytes or more. -/
def LongName (token : Token) : Prop :=
  token.type = .string ∧ ∃ str, decodeString token.text = .ok str ∧ 2 ^ 30 ≤ str.length

/-- A limit of the reader is passed here. -/
def Exceeds : Place → Prop
  | value brackets s =>
    stackLimit ≤ brackets.length ∨ LongString (skipCommentTokens s).2.1
  | item .object _ s => (skipCommentTokens s).1 = true ∧ LongName (skipCommentTokens s).2.1
  | item .array _ _ | after _ _ => False

end Place

open Place

/-! ## Single steps -/

theorem stringValue_fault_iff {s : Bytes} :
    (∃ f, stringValue s = .error (.fault f)) ↔ maxStringLength < s.length % 2 ^ 32 := by
  unfold stringValue Value.ofString
  split
  · next heq =>
    split at heq
    · next h =>
      refine iff_of_false ?_ (Nat.not_lt.mpr h)
      rintro ⟨f, h⟩
      cases h
    · cases heq
  · next heq =>
    split at heq
    · cases heq
    · next h => exact iff_of_true ⟨_, rfl⟩ (Nat.not_le.mp h)

theorem readScalar_fault_iff {token : Token} :
    (∃ f, readScalar token = .error (.fault f)) ↔ LongString token := by
  constructor
  · rintro ⟨f, h⟩
    have htype : token.type = .string := by
      by_contra hne
      unfold readScalar at h
      split at h
      · exact decodeNumber_fault h
      · contradiction
      all_goals cases h
    refine ⟨htype, ?_⟩
    simp only [readScalar, htype] at h
    rcases Outcome.bind_eq_error.mp h with h | ⟨str, hs, h⟩
    · exact absurd h decodeChars_fault
    · exact ⟨str, hs, stringValue_fault_iff.mp ⟨f, h⟩⟩
  · rintro ⟨htype, str, hs, hlong⟩
    obtain ⟨f, h⟩ := stringValue_fault_iff.mpr hlong
    exact ⟨f, by simp [readScalar, htype, hs, h]⟩

theorem readMemberName_fault_iff {s : Bytes} :
    (∃ f, readMemberName s = .error (.fault f)) ↔
      (skipCommentTokens s).1 = true ∧ LongName (skipCommentTokens s).2.1 := by
  unfold readMemberName
  obtain ⟨ok, token, s₁⟩ := skipCommentTokens s
  dsimp only
  split
  · next hok => exact iff_of_false (fun ⟨_, h⟩ => nomatch h) fun h => by simp [h.1] at hok
  split
  · next htype =>
    exact iff_of_false (fun ⟨_, h⟩ => nomatch h) fun h => by rw [h.2.1] at htype; cases htype
  split
  · next htype => exact iff_of_false (fun ⟨_, h⟩ => nomatch h) fun h => htype h.2.1
  next hok _ htype =>
  have hok : ok = true := by simpa using hok
  have htype : token.type = .string := by simpa using htype
  constructor
  · rintro ⟨f, h⟩
    rcases Outcome.bind_eq_error.mp h with h | ⟨name, hn, h⟩
    · exact absurd h decodeChars_fault
    split at h
    · next hlong => exact ⟨hok, htype, name, hn, hlong⟩
    split at h <;> cases h
  · rintro ⟨-, -, name, hn, hlong⟩
    exact ⟨_, by rw [hn, Outcome.ok_bind, if_pos hlong]; rfl⟩

/-! ## The reader follows the machine -/

/-- What a reader of values does, started at a place with `brackets` open around the value: it comes
to the end of the value, or to a place where a limit is passed, or the machine stops elsewhere. -/
def Follows {α : Type} (p : Place) (brackets : List Bracket) : ReadM (α × Bytes) → Prop
  | .ok (_, rest) => Reaches next p (after brackets rest)
  | .error (.fault _) => ∃ q, Reaches next p q ∧ q.Exceeds
  | .error (.syntaxError _) => ∃ q, Reaches next p q ∧ q.next = none ∧ ¬ q.Exceeds ∧
      ∀ s, q ≠ after [] s

section
variable {α β : Type} {p q : Place} {brackets brackets' : List Bracket}

theorem Follows.trans {x : ReadM (α × Bytes)} (h : Reaches next p q) (hx : Follows q brackets x) :
    Follows p brackets x := by
  cases x with
  | ok r => exact Relation.ReflTransGen.trans h hx
  | error e =>
    cases e with
    | fault f =>
      obtain ⟨q', hq, he⟩ := hx
      exact ⟨q', Relation.ReflTransGen.trans h hq, he⟩
    | syntaxError m =>
      obtain ⟨q', hq, he⟩ := hx
      exact ⟨q', Relation.ReflTransGen.trans h hq, he⟩

theorem Follows.step {x : ReadM (α × Bytes)} (h : p.next = some q) (hx : Follows q brackets x) :
    Follows p brackets x :=
  Follows.trans (.single h) hx

/-- What comes after a value is read from where the value ends. -/
theorem Follows.bind {x : ReadM (α × Bytes)} {f : α × Bytes → ReadM (β × Bytes)}
    (hx : Follows p brackets' x)
    (hf : ∀ v rest, x = .ok (v, rest) → Follows (after brackets' rest) brackets (f (v, rest))) :
    Follows p brackets (x >>= f) := by
  cases x with
  | ok r => exact .trans hx (hf r.1 r.2 rfl)
  | error e => cases e <;> exact hx

/-- The machine stops where the reader stops. -/
theorem Follows.stop {e : Stop} (hnext : p.next = none) (hafter : ∀ s, p ≠ after [] s)
    (he : (∃ f, e = .fault f) ↔ p.Exceeds) :
    Follows p brackets (.error e : ReadM (α × Bytes)) := by
  cases e with
  | fault f => exact ⟨p, .refl, he.mp ⟨f, rfl⟩⟩
  | syntaxError m => exact ⟨p, .refl, hnext, fun h => (he.mpr h).elim fun _ h => (nomatch h), hafter⟩

end

theorem follows_readScalar {brackets : List Bracket} {s rest : Bytes} {ok : Bool} {token : Token}
    (heq : skipCommentTokens s = (ok, token, rest)) (hd : ¬ stackLimit ≤ brackets.length)
    (ho : token.type ≠ .objectBegin) (ha : token.type ≠ .arrayBegin) :
    Follows (value brackets s) brackets (do return (← readScalar token, rest)) := by
  have hnext : (value brackets s).next =
      match readScalar token with
      | .ok _ => some (after brackets rest)
      | .error _ => none := by
    simp only [next, if_neg hd, heq, if_neg ho, if_neg ha]
  cases hr : readScalar token with
  | ok v =>
    rw [hr] at hnext
    exact .step hnext .refl
  | error e =>
    rw [hr] at hnext
    refine .stop hnext (fun _ => nofun) ?_
    rw [show (value brackets s).Exceeds ↔ LongString token by simp [Exceeds, hd, heq],
      ← readScalar_fault_iff, hr]
    simp

theorem value_ne_after (brackets : List Bracket) (s : Bytes) (t : Bytes) :
    value brackets s ≠ after [] t := by
  intro h
  cases h

theorem item_ne_after (bracket : Bracket) (brackets : List Bracket) (s : Bytes) (t : Bytes) :
    item bracket brackets s ≠ after [] t := by
  intro h
  cases h

theorem after_cons_ne_after (bracket : Bracket) (brackets : List Bracket) (s : Bytes) (t : Bytes) :
    after (bracket :: brackets) s ≠ after [] t := by
  intro h
  cases h

theorem syntaxError_ne_fault (message : Bytes) : ¬ ∃ f, Stop.syntaxError message = .fault f := by
  rintro ⟨f, h⟩
  cases h

/-- The reader of values follows the machine from where a value is due, and its loops from where an
item is due. -/
theorem read_follows (fuel : Nat) :
    (∀ brackets s, 2 * s.length ≤ fuel →
      Follows (value brackets s) brackets (readValue fuel (brackets.length + 1) s)) ∧
    (∀ brackets ms s, 2 * s.length ≤ fuel →
      Follows (item .object brackets s) brackets (readObject fuel (brackets.length + 1) ms s)) ∧
    (∀ brackets xs s, 2 * s.length + 1 ≤ fuel →
      Follows (item .array brackets s) brackets (readArray fuel (brackets.length + 1) xs s)) := by
  induction fuel with
  | zero =>
    refine ⟨fun brackets s h => ?_, fun brackets ms s h => ?_, fun _ _ _ h => absurd h (by omega)⟩
    · obtain rfl := List.length_eq_zero_iff.mp (show s.length = 0 by omega)
      rw [readValue, readValueAtEnd]
      have hread : skipCommentTokens [] = (true, ⟨.endOfStream, []⟩, []) := rfl
      have hexceeds : (value brackets []).Exceeds ↔ stackLimit ≤ brackets.length := by
        simp [Exceeds, LongString, hread]
      have hnext : (value brackets []).next = none := by
        simp [next, hread, readScalar, addError]
      split
      · next hd =>
        exact .stop hnext (value_ne_after _ _)
          (iff_of_true ⟨_, rfl⟩ (hexceeds.mpr (Nat.lt_succ_iff.mp hd)))
      · next hd =>
        exact .stop hnext (value_ne_after _ _)
          (iff_of_false (syntaxError_ne_fault _) fun h => hd (Nat.lt_succ_iff.mpr (hexceeds.mp h)))
    · obtain rfl := List.length_eq_zero_iff.mp (show s.length = 0 by omega)
      rw [readObject]
      exact .stop rfl (item_ne_after _ _ _)
        (iff_of_false (syntaxError_ne_fault _) fun h => absurd h.2.1 (by decide))
  | succ fuel ih =>
    obtain ⟨ihv, iho, iha⟩ := ih
    refine ⟨fun brackets s h => ?_, fun brackets ms s h => ?_, fun brackets xs s h => ?_⟩
    · rw [readValue]
      split
      · next hd =>
        have hd : stackLimit ≤ brackets.length := Nat.lt_succ_iff.mp hd
        exact .stop (by simp only [next, if_pos hd]) (value_ne_after _ _)
          (iff_of_true ⟨_, rfl⟩ (.inl hd))
      next hd =>
      have hd : ¬ stackLimit ≤ brackets.length := fun h => hd (Nat.lt_succ_iff.mpr h)
      split
      next ok token rest heq =>
      have hlt := skipCommentTokens_lt heq
      split
      · next hb =>
        have := hlt (by rw [hb]; decide)
        exact .step (by simp only [next, if_neg hd, heq, if_pos hb]) (iho _ _ _ (by omega))
      split
      · next ho hb =>
        have := hlt (by rw [hb]; decide)
        exact .step (by simp only [next, if_neg hd, heq, if_neg ho, if_pos hb])
          (iha _ _ _ (by omega))
      · next ho ha => exact follows_readScalar heq hd ho ha
    · rw [readObject]
      cases h₁ : readMemberName s with
      | error e =>
        refine .stop (by simp only [next, h₁]) (item_ne_after _ _ _) ?_
        rw [show (item .object brackets s).Exceeds ↔ _ from readMemberName_fault_iff.symm, h₁]
        simp
      | ok r =>
        obtain ⟨name, s₁⟩ := r
        have hs₁ := readMemberName_length h₁
        cases name with
        | none => exact .step (by simp only [next, h₁]) .refl
        | some name =>
          refine .step (q := value (.object :: brackets) s₁) (by simp only [next, h₁]) ?_
          rw [Outcome.ok_bind]
          refine .bind (ihv (.object :: brackets) s₁ (by omega)) fun v s₂ h₂ => ?_
          have hs₂ : s₂.length ≤ _ := (read_length _).1 _ _ _ _ h₂
          dsimp only
          cases h₃ : readMemberEnd s₂ with
          | error e =>
            rw [Outcome.error_bind]
            refine .stop (by simp only [next, h₃]) (after_cons_ne_after _ _ _) (iff_of_false ?_ id)
            rintro ⟨f, rfl⟩
            exact readMemberEnd_fault h₃
          | ok r =>
            obtain ⟨closed, s₃⟩ := r
            have hs₃ : s₃.length ≤ s₂.length := readMemberEnd_length h₃
            rw [Outcome.ok_bind]
            cases closed with
            | true => exact .step (by simp only [next, h₃]) .refl
            | false =>
              exact .step (q := item .object brackets s₃) (by simp only [next, h₃])
                (iho _ _ _ (by omega))
    · rw [readArray]
      have hs := dropWhile_length isSpace s
      split
      · next s₁ heq => exact .step (by simp only [next, heq]) .refl
      · next hne =>
        have hs' : (skipSpaces s).length ≤ s.length := hs
        refine .step (q := value (.array :: brackets) (skipSpaces s)) ?_ ?_
        · simp only [next]
        refine .bind (ihv (.array :: brackets) (skipSpaces s) (by omega)) fun v s₂ h₂ => ?_
        have hs₂ : s₂.length ≤ _ := (read_length _).1 _ _ _ _ h₂
        dsimp only
        cases h₃ : readElementEnd s₂ with
        | error e =>
          rw [Outcome.error_bind]
          refine .stop (by simp only [next, h₃]) (after_cons_ne_after _ _ _) (iff_of_false ?_ id)
          rintro ⟨f, rfl⟩
          exact readElementEnd_fault h₃
        | ok r =>
          obtain ⟨closed, s₃⟩ := r
          have hs₃ : s₃.length < s₂.length := readElementEnd_length h₃
          rw [Outcome.ok_bind]
          cases closed with
          | true => exact .step (by simp only [next, h₃]) .refl
          | false =>
            exact .step (q := item .array brackets s₃) (by simp only [next, h₃])
              (iha _ _ _ (by omega))

/-- Where a limit is passed the machine stops. -/
theorem Place.Exceeds.next_eq_none {p : Place} (h : p.Exceeds) : p.next = none := by
  cases p with
  | value brackets s =>
    rcases h with hd | hlong
    · exact if_pos hd
    · obtain ⟨f, hf⟩ := readScalar_fault_iff.mpr hlong
      have ho : (skipCommentTokens s).2.1.type ≠ .objectBegin := by rw [hlong.1]; decide
      have ha : (skipCommentTokens s).2.1.type ≠ .arrayBegin := by rw [hlong.1]; decide
      simp only [next, if_neg ho, if_neg ha, hf, ite_self]
  | item bracket brackets s =>
    cases bracket with
    | object =>
      obtain ⟨f, hf⟩ := readMemberName_fault_iff.mpr h
      simp only [next, hf]
    | array => cases h
  | after brackets s => cases h

/-- The reader throws exactly if the machine comes to a place where a limit is passed. -/
theorem parse_fault_iff (doc : Bytes) :
    (∃ f, parse doc = .error (.fault f)) ↔
      ∃ p, Reaches next (value [] (skipBom doc)) p ∧ p.Exceeds := by
  have hfollows : Follows (value [] (skipBom doc)) [] (parse doc) :=
    (read_follows _).1 [] (skipBom doc) le_rfl
  -- the machine stops at one place only
  have hstop : ∀ {p q : Place}, Reaches next (value [] (skipBom doc)) p → p.next = none →
      Reaches next (value [] (skipBom doc)) q → q.next = none → p = q := fun hp hp' hq hq' =>
    Part.mem_unique (StateTransition.mem_eval.mpr ⟨hp, hp'⟩) (StateTransition.mem_eval.mpr ⟨hq, hq'⟩)
  cases h : parse doc with
  | ok r =>
    rw [h] at hfollows
    refine iff_of_false (fun ⟨_, h⟩ => nomatch h) fun ⟨p, hp, he⟩ => ?_
    cases hstop hp he.next_eq_none hfollows rfl
    exact he
  | error e =>
    rw [h] at hfollows
    cases e with
    | fault f => exact iff_of_true ⟨f, rfl⟩ hfollows
    | syntaxError m =>
      obtain ⟨q, hq, hnone, hne, -⟩ := hfollows
      refine iff_of_false (fun ⟨_, h⟩ => nomatch h) fun ⟨p, hp, he⟩ => ?_
      cases hstop hp he.next_eq_none hq hnone
      exact hne he

end RocksdbService.Json.OurReader

namespace RocksdbService.Json

open StateTransition (Reaches)
open OurReader (Place skipBom)

/-- The limits of the reader are kept throughout the document. -/
def WithinLimits (doc : Bytes) : Prop :=
  ∀ p, Reaches Place.next (.value [] (skipBom doc)) p → ¬ p.Exceeds

theorem parseFromStream_returns_iff (doc : Bytes) :
    Outcome.Returns (parseFromStream doc) ↔ WithinLimits doc := by
  have h := OurReader.parse_fault_iff doc
  unfold parseFromStream WithinLimits
  split
  · next heq => simpa [heq] using h
  · next heq => simpa [heq] using h
  · next heq =>
    refine iff_of_false (Outcome.not_returns_error _) fun hw => ?_
    obtain ⟨p, hp, he⟩ := h.mp ⟨_, heq⟩
    exact hw p hp he

end RocksdbService.Json
