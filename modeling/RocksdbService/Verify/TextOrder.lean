import RocksdbService.Verify.Reader

/-! # Members in the order of the text

`readObject` keeps the members of an object in the order of their names, and of several members with a
name the last. `readMembers` is the same loop with the members as they stand in the text; what it leaves
is what the object is collected from (`readObject_eq`). -/

namespace RocksdbService.Json

/-- A member of an object in a text. -/
structure Written where
  name : Bytes
  /-- The bytes from the value on. -/
  text : Bytes
  value : Value

def Written.pair (w : Written) : Bytes × Value := (w.name, w.value)

namespace OurReader

/-- The loop of `readObject`, which leaves the members in the order of the text. -/
def readMembers : (fuel depth : Nat) → Bytes → ReadM (List Written × Bytes)
  | 0, _, _ => addError "Missing '\x7d' or object member name"
  | fuel + 1, depth, s => do
    match ← readMemberName s with
    | (none, s₁) => return ([], s₁)
    | (some name, s₁) =>
      let (value, s₂) ← readValue fuel (depth + 1) s₁
      let (closed, s₃) ← readMemberEnd s₂
      if closed then return ([⟨name, s₁, value⟩], s₃)
      else
        let (written, s₄) ← readMembers fuel depth s₃
        return (⟨name, s₁, value⟩ :: written, s₄)

/-- An object is collected from its members in the order of the text. -/
theorem readObject_eq (fuel depth : Nat) (ms : Members) (s : Bytes) :
    readObject fuel depth ms s = (do
      let (written, s') ← readMembers fuel depth s
      return (.object (OrdMap.insertAll ms (written.map Written.pair)), s')) := by
  induction fuel generalizing ms s with
  | zero => rfl
  | succ fuel ih =>
    rw [readObject, readMembers, bind_assoc]
    apply Outcome.bind_congr_ok
    rintro ⟨name, s₁⟩ -
    cases name with
    | none => rfl
    | some name =>
    dsimp only
    rw [bind_assoc]
    apply Outcome.bind_congr_ok
    rintro ⟨value, s₂⟩ -
    rw [bind_assoc]
    apply Outcome.bind_congr_ok
    rintro ⟨closed, s₃⟩ -
    cases closed with
    | true => rfl
    | false =>
      dsimp only
      rw [if_neg Bool.false_ne_true, if_neg Bool.false_ne_true, ih, bind_assoc]
      rfl

/-- The value of a member is read from its text. -/
theorem readMembers_value {fuel depth : Nat} {s s' : Bytes} {written : List Written}
    (hfuel : 2 * s.length ≤ fuel) (h : readMembers fuel depth s = .ok (written, s')) :
    ∀ w ∈ written, ∃ rest, readValue (2 * w.text.length) (depth + 1) w.text = .ok (w.value, rest) := by
  induction fuel generalizing s written with
  | zero => cases h
  | succ fuel ih =>
    rw [readMembers] at h
    obtain ⟨⟨name, s₁⟩, h₁, h⟩ := Outcome.bind_eq_ok.mp h
    have hs₁ := readMemberName_length h₁
    cases name with
    | none => cases h; exact nofun
    | some name =>
    obtain ⟨⟨value, s₂⟩, h₂, h⟩ := Outcome.bind_eq_ok.mp h
    obtain ⟨⟨closed, s₃⟩, h₃, h⟩ := Outcome.bind_eq_ok.mp h
    have hs₂ := (read_length _).1 _ _ _ _ h₂
    have hs₃ := readMemberEnd_length h₃
    have hvalue : ∃ rest, readValue (2 * s₁.length) (depth + 1) s₁ = .ok (value, rest) := by
      rw [readValue_fuel _ (show 2 * s₁.length ≤ fuel by omega)] at h₂
      exact ⟨s₂, h₂⟩
    cases closed with
    | true => cases h; exact List.forall_mem_singleton.mpr hvalue
    | false =>
      obtain ⟨⟨written', s₄⟩, h₄, h⟩ := Outcome.bind_eq_ok.mp h
      cases h
      exact List.forall_mem_cons.mpr ⟨hvalue, ih (by omega) h₄⟩

/-- The members of the object that a text begins with. -/
def writtenMembers (depth : Nat) (s : Bytes) : Option (List Written) :=
  let (_, token, rest) := skipCommentTokens s
  if token.type = .objectBegin then
    match readMembers (2 * s.length - 1) depth rest with
    | .ok (written, _) => some written
    | .error _ => none
  else none

/-- A value that is read is an object exactly if its text begins with one, whose members it has. -/
theorem readValue_written {depth : Nat} {s s' : Bytes} {v : Value}
    (h : readValue (2 * s.length) depth s = .ok (v, s')) :
    (∃ written, writtenMembers depth s = some written ∧
      v = .object (OrdMap.insertAll [] (written.map Written.pair)) ∧
      ∀ w ∈ written, ∃ rest, readValue (2 * w.text.length) (depth + 1) w.text = .ok (w.value, rest)) ∨
    (writtenMembers depth s = none ∧ ∀ ms, v ≠ .object ms) := by
  unfold writtenMembers
  generalize hn : 2 * s.length = n at h ⊢
  cases n with
  | zero => rw [readValue, readValueAtEnd] at h; split at h <;> cases h
  | succ fuel =>
  rw [readValue] at h
  split at h
  · cases h
  obtain ⟨ok, token, rest, heq⟩ : ∃ ok token rest, skipCommentTokens s = (ok, token, rest) :=
    ⟨_, _, _, rfl⟩
  rw [heq] at h ⊢
  dsimp only at h ⊢
  split at h
  · next htype =>
    have hlt := skipCommentTokens_lt heq (by rw [htype]; decide)
    rw [if_pos htype, Nat.add_sub_cancel]
    rw [readObject_eq] at h
    obtain ⟨⟨written, s₁⟩, hread, h⟩ := Outcome.bind_eq_ok.mp h
    cases h
    rw [hread]
    exact .inl ⟨written, rfl, rfl, readMembers_value (by omega) hread⟩
  next htype =>
  rw [if_neg htype]
  refine .inr ⟨rfl, ?_⟩
  rintro ms rfl
  split at h
  · obtain ⟨ys, hys⟩ := readArray_isArray h
    cases hys
  · obtain ⟨w, hw, h⟩ := Outcome.bind_eq_ok.mp h
    cases h
    exact readScalar_ne_object hw ms rfl

end OurReader

/-- The members of the `items` of a document, in the order of the text. -/
def itemsOf (doc : Bytes) : Option (List (Bytes × Value)) := do
  let members ← OurReader.writtenMembers 1 (OurReader.skipBom doc)
  let items ← members.reverse.find? (·.name = ascii "items")
  let written ← OurReader.writtenMembers 2 items.text
  return written.map Written.pair

theorem itemsOf_eq {doc : Bytes} {root : Value} (h : parseFromStream doc = .ok (.ok root)) :
    (∃ items, itemsOf doc = some items ∧
      root.member (ascii "items") = .object (OrdMap.insertAll [] items)) ∨
    (itemsOf doc = none ∧ ∀ ms, root.member (ascii "items") ≠ .object ms) := by
  obtain ⟨rest, h⟩ := parseFromStream_eq_ok h
  unfold itemsOf
  rcases OurReader.readValue_written h with ⟨members, hmembers, rfl, hvalues⟩ | ⟨hnone, hne⟩
  · rw [hmembers, Value.member]
    simp only [Option.bind_eq_bind, Option.bind_some]
    cases hitems : members.reverse.find? (·.name = ascii "items") with
    | none =>
      have hnot : ascii "items" ∉ (members.map Written.pair).map Prod.fst := by
        intro h
        obtain ⟨p, hp, hname⟩ := List.mem_map.mp h
        obtain ⟨w, hw, rfl⟩ := List.mem_map.mp hp
        exact List.find?_eq_none.mp hitems w (List.mem_reverse.mpr hw) (decide_eq_true hname)
      rw [OrdMap.find?_insertAll_of_not_mem _ hnot]
      exact .inr ⟨rfl, fun ms h => by cases h⟩
    | some items =>
      obtain ⟨hname, after, before, hsplit, hafter⟩ := List.find?_eq_some_iff_append.mp hitems
      have hnot : ascii "items" ∉ (after.reverse.map Written.pair).map Prod.fst := by
        intro h
        obtain ⟨p, hp, hname⟩ := List.mem_map.mp h
        obtain ⟨w, hw, rfl⟩ := List.mem_map.mp hp
        have hne : w.name ≠ ascii "items" := by simpa using hafter w (List.mem_reverse.mp hw)
        exact hne hname
      have hmem : items ∈ members := List.mem_reverse.mp (List.mem_of_find?_eq_some hitems)
      have hlist : members.map Written.pair = before.reverse.map Written.pair ++
          (ascii "items", items.value) :: after.reverse.map Written.pair := by
        rw [← List.reverse_reverse members, hsplit]
        simp [Written.pair, of_decide_eq_true hname]
      rw [hlist, OrdMap.find?_insertAll_last _ _ _ hnot]
      obtain ⟨rest', hvalue⟩ := hvalues items hmem
      rcases OurReader.readValue_written hvalue with ⟨written, hwritten, heq, -⟩ | ⟨hnone, hne⟩
      · rw [Option.bind_some, hwritten]
        exact .inl ⟨_, rfl, heq⟩
      · rw [Option.bind_some, hnone]
        exact .inr ⟨rfl, hne⟩
  · refine .inr ⟨?_, fun ms heq => ?_⟩
    · rw [hnone]
      rfl
    · cases root with
      | object ms' => exact hne _ rfl
      | _ => cases heq

end RocksdbService.Json
