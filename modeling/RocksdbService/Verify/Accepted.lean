import RocksdbService.Verify.RoundTrip
import RocksdbService.Verify.StoredLength

/-! # What the reader accepts

Also beyond the grammar (comments, missing members, names that occur twice, text after the value) the
reader accepts only texts of values that can be printed, and no deeper ones than it reads back
(`parseFromStream_writable`). So whatever it has accepted can be printed and is read back, and it is the
same from then on (`parseFromStream_reread`). -/

namespace RocksdbService

namespace Double

theorem read_representable {s : Bytes} {d : Double} (h : read s = some d) : d.Representable := by
  have hmap : ∀ {neg : Bool} {x n : Nat} {e : Option Int}, (e.map fun e =>
      ofFraction neg (scale 10 (e - x) n 1).1 (scale 10 (e - x) n 1).2) = some d → d.Representable := by
    intro neg x n e h
    obtain ⟨e, -, rfl⟩ := Option.map_eq_some_iff.mp h
    exact ofFraction_representable _ _ (scale_spec (by decide) _ _ one_pos).1
  unfold read at h
  dsimp only at h
  split at h
  · split at h
    · cases h
    · exact hmap h
  · split at h
    · cases h
    · exact hmap h

end Double

namespace Json.OurReader

open Value (elementsDepth membersDepth elementsDepth_le membersDepth_le)

/-- The value can be printed, and read at this depth. -/
structure Fits (depth : Nat) (v : Value) : Prop where
  writable : v.Writable
  depth_le : depth + v.depth ≤ stackLimit + 1

namespace Fits

variable {depth : Nat} {v : Value}

theorem empty_array (h : depth ≤ stackLimit) : Fits depth (.array []) :=
  ⟨.array (List.forall_mem_nil _), Nat.succ_le_succ h⟩

theorem empty_object (h : depth ≤ stackLimit) : Fits depth (.object []) :=
  ⟨.object (List.forall_mem_nil _) (List.forall_mem_nil _), Nat.succ_le_succ h⟩

theorem push {xs : List Value} (h : Fits depth (.array xs)) (hv : Fits (depth + 1) v) :
    Fits depth (.array (xs ++ [v])) := by
  obtain ⟨hw, hd⟩ := h
  cases hw with
  | array hxs =>
    refine ⟨.array (List.forall_mem_append.mpr ⟨hxs, List.forall_mem_singleton.mpr hv.writable⟩), ?_⟩
    have hle : elementsDepth (xs ++ [v]) ≤ stackLimit - depth := by
      have hxs := hd
      have hv := hv.depth_le
      rw [Value.depth] at hxs
      refine elementsDepth_le.mpr (List.forall_mem_append.mpr
        ⟨elementsDepth_le.mp (by omega), List.forall_mem_singleton.mpr (by omega)⟩)
    rw [Value.depth] at hd ⊢
    omega

theorem insert {ms : Members} {name : Bytes} (h : Fits depth (.object ms)) (hv : Fits (depth + 1) v)
    (hname : (recoded name).length ≤ maxNameLength) : Fits depth (.object (OrdMap.insert ms name v)) := by
  obtain ⟨hw, hd⟩ := h
  cases hw with
  | object hnames hms =>
    have hinsert : ∀ {P : Bytes × Value → Prop}, (∀ p ∈ ms, P p) → P (name, v) →
        ∀ p ∈ OrdMap.insert ms name v, P p := by
      intro P hms hv p hp
      rcases OrdMap.mem_insert hp with rfl | hp
      · exact hv
      · exact hms p hp
    refine ⟨.object (hinsert hnames hname) (hinsert hms hv.writable), ?_⟩
    have hle : membersDepth (OrdMap.insert ms name v) ≤ stackLimit - depth := by
      have hms := hd
      have hv := hv.depth_le
      rw [Value.depth] at hms
      exact membersDepth_le.mpr (hinsert (membersDepth_le.mp (by omega)) (by dsimp only; omega))
    rw [Value.depth] at hd ⊢
    omega

end Fits

/-! ## Scalars -/

theorem decodeNumber_writable {text : Bytes} {v : Value} (h : decodeNumber text = .ok v) :
    v.Writable ∧ v.depth = 1 := by
  have hdouble : ∀ {text : Bytes}, decodeDouble text = .ok v → v.Writable ∧ v.depth = 1 := by
    intro text h
    unfold decodeDouble at h
    split at h
    · next hread =>
      cases h
      exact ⟨.real (Double.read_representable hread), rfl⟩
    · cases h
  have hwf := decodeNumber_wellFormed h
  unfold decodeNumber at h
  split at h
  · split at h
    · cases h
      cases hwf with
      | int hrange => exact ⟨.int hrange, rfl⟩
    · exact hdouble h
  · split at h
    · split at h
      · cases h
        cases hwf with
        | int hrange => exact ⟨.int hrange, rfl⟩
      · cases h
        cases hwf with
        | uint hrange => exact ⟨.uint hrange, rfl⟩
    · exact hdouble h

theorem readScalar_writable {n : Nat} (hn : 3 * n ≤ maxStringLength) {s rest : Bytes} {ok : Bool}
    {token : Token} {v : Value} (hs : s.length ≤ n) (heq : skipCommentTokens s = (ok, token, rest))
    (h : readScalar token = .ok v) : v.Writable ∧ v.depth = 1 := by
  have hstrings := (readScalar_stringsLe heq h).mono hs
  unfold readScalar at h
  split at h
  · exact decodeNumber_writable h
  · obtain ⟨t, -, h⟩ := Outcome.bind_eq_ok.mp h
    unfold stringValue Value.ofString at h
    split at h
    · next hstring =>
      cases h
      split at hstring
      · cases hstring
        cases hstrings with
        | string hlen =>
          have hle := recoded_length (t.take (t.length % 2 ^ 32))
          exact ⟨.string (by dsimp only at hlen ⊢; omega), rfl⟩
      · cases hstring
    · cases h
  all_goals cases h
  · exact ⟨.bool _, rfl⟩
  · exact ⟨.bool _, rfl⟩
  · exact ⟨.null, rfl⟩

/-! ## Documents -/

theorem read_fits {n : Nat} (hn : 3 * n ≤ maxNameLength) (fuel : Nat) :
    (∀ d s v s', s.length ≤ n → readValue fuel d s = .ok (v, s') → Fits d v) ∧
    (∀ d ms s v s', s.length ≤ n → Fits d (.object ms) → readObject fuel d ms s = .ok (v, s') → Fits d v) ∧
    (∀ d xs s v s', s.length ≤ n → Fits d (.array xs) → readArray fuel d xs s = .ok (v, s') → Fits d v) := by
  induction fuel with
  | zero =>
    refine ⟨fun d s v s' _ h => ?_, fun d ms s v s' _ _ h => ?_, fun d xs s v s' _ _ h => ?_⟩
    · rw [readValue, readValueAtEnd] at h; split at h <;> cases h
    · rw [readObject] at h; cases h
    · rw [readArray, readValueAtEnd] at h; split at h <;> cases h
  | succ fuel ih =>
    obtain ⟨ihv, iho, iha⟩ := ih
    refine ⟨fun d s v s' hs h => ?_, fun d ms s v s' hs hms h => ?_, fun d xs s v s' hs hxs h => ?_⟩
    · rw [readValue] at h
      split at h
      · cases h
      next hd =>
      have hd := Nat.not_lt.mp hd
      split at h
      next ok token rest heq =>
      have hrest := (skipCommentTokens_length heq).trans hs
      split at h
      · exact iho _ _ _ _ _ hrest (.empty_object hd) h
      split at h
      · exact iha _ _ _ _ _ hrest (.empty_array hd) h
      obtain ⟨w, hw, h⟩ := Outcome.bind_eq_ok.mp h
      cases h
      obtain ⟨hwritable, hdepth⟩ := readScalar_writable (hn.trans (by decide)) hs heq hw
      exact ⟨hwritable, by omega⟩
    · rw [readObject] at h
      obtain ⟨⟨name, s₁⟩, h₁, h⟩ := Outcome.bind_eq_ok.mp h
      cases name with
      | none => cases h; exact hms
      | some name =>
        obtain ⟨⟨value, s₂⟩, h₂, h⟩ := Outcome.bind_eq_ok.mp h
        obtain ⟨⟨closed, s₃⟩, h₃, h⟩ := Outcome.bind_eq_ok.mp h
        have hs₁ := (readMemberName_length h₁).le.trans hs
        have hs₂ : s₂.length ≤ n := ((read_length _).1 _ _ _ _ h₂).trans hs₁
        have hname : (recoded name).length ≤ maxNameLength := by
          have hlen := readMemberName_some_length h₁
          have hle := recoded_length name
          omega
        have hms' := hms.insert (ihv _ _ _ _ hs₁ h₂) hname
        cases closed with
        | true => cases h; exact hms'
        | false => exact iho _ _ _ _ _ ((readMemberEnd_length h₃).trans hs₂) hms' h
    · rw [readArray] at h
      have hs₁ : (skipSpaces s).length ≤ n := (dropWhile_length isSpace s).trans hs
      split at h
      · cases h; exact hxs
      · obtain ⟨⟨value, s₂⟩, h₂, h⟩ := Outcome.bind_eq_ok.mp h
        obtain ⟨⟨closed, s₃⟩, h₃, h⟩ := Outcome.bind_eq_ok.mp h
        have hs₂ : s₂.length ≤ n := ((read_length _).1 _ _ _ _ h₂).trans hs₁
        have hxs' := hxs.push (ihv _ _ _ _ hs₁ h₂)
        cases closed with
        | true => cases h; exact hxs'
        | false => exact iha _ _ _ _ _ ((readElementEnd_length h₃).le.trans hs₂) hxs' h

end Json.OurReader

namespace Json

/-- Whatever the reader accepts can be printed, and is not nested deeper than it reads back. -/
theorem parseFromStream_writable {doc : Bytes} {root : Value} (hdoc : 3 * doc.length ≤ maxNameLength)
    (h : parseFromStream doc = .ok (.ok root)) : root.Writable ∧ root.depth ≤ OurReader.stackLimit := by
  obtain ⟨rest, h⟩ := parseFromStream_eq_ok h
  obtain ⟨hw, hd⟩ := (OurReader.read_fits hdoc _).1 _ _ _ _ (OurReader.skipBom_length doc) h
  exact ⟨hw, by omega⟩

/-- What has been accepted is printed as a text that is accepted again, and after that nothing changes. -/
theorem parseFromStream_reread {doc : Bytes} {root : Value} (hdoc : 3 * doc.length ≤ maxNameLength)
    (h : parseFromStream doc = .ok (.ok root)) :
    parseFromStream (FastWriter.write root) = .ok (.ok root.reread) ∧
      parseFromStream (FastWriter.write root.reread) = .ok (.ok root.reread) := by
  obtain ⟨hw, hd⟩ := parseFromStream_writable hdoc h
  exact ⟨hw.read_write hd, parseFromStream_write_reread hw hd⟩

/-- A comment, half of a surrogate pair, a comma at the end, and text after the value. -/
theorem parseFromStream_reread_lenient : ∃ root,
    parseFromStream (ascii "[/**/\"\\udc00\",]x") = .ok (.ok root) ∧
      parseFromStream (FastWriter.write root) = .ok (.ok root.reread) ∧
      parseFromStream (FastWriter.write root.reread) = .ok (.ok root.reread) := by
  have hparse : parseFromStream (ascii "[/**/\"\\udc00\",]x") =
      .ok (.ok (.array [.string ⟨[0xed, 0xb0, 0x80], by decide⟩])) :=
    parseFromStream_eq (by decide +kernel)
  exact ⟨_, hparse, parseFromStream_reread (by decide) hparse⟩

end Json

end RocksdbService
