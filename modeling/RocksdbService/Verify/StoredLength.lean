import RocksdbService.Service.Session
import RocksdbService.Verify.DocumentLength
import RocksdbService.Verify.Effects

/-! # How long the stored values are

The strings of a document are not longer than the document, and other values convert to short texts. A
payload that `do_read` accepts therefore writes only values of `maxLength` bytes at most
(`World.Bounded.execReply`). -/

namespace RocksdbService

open Outcome
open Json (Value JString Members)

namespace Json.Value

/-- No string in the value is longer than `n`. -/
inductive StringsLe (n : Nat) : Value → Prop
  | null : StringsLe n null
  | int (i : Int) : StringsLe n (int i)
  | uint (k : Nat) : StringsLe n (uint k)
  | real (d : Double) : StringsLe n (real d)
  | bool (b : Bool) : StringsLe n (bool b)
  | string {s : JString} (h : s.bytes.length ≤ n) : StringsLe n (string s)
  | array {xs : List Value} (h : ∀ x ∈ xs, StringsLe n x) : StringsLe n (array xs)
  | object {ms : Members} (h : ∀ p ∈ ms, StringsLe n p.2) : StringsLe n (object ms)

theorem StringsLe.of_mem {n : Nat} {ms : Members} (h : StringsLe n (Value.object ms)) {p : Bytes × Value}
    (hp : p ∈ ms) : StringsLe n p.2 := by
  cases h with
  | object h => exact h p hp

theorem StringsLe.member {n : Nat} {v : Value} (h : StringsLe n v) (key : Bytes) :
    StringsLe n (v.member key) := by
  cases h with
  | object h =>
    rw [Value.member]
    cases hf : OrdMap.find? _ key with
    | none => exact .null
    | some x => exact h _ (OrdMap.mem_of_find? hf)
  | _ => exact .null

theorem StringsLe.closed (n : Nat) : Closed (StringsLe n) where
  empty_object := .object nofun
  empty_array := .array nofun
  insert name h hv := .object fun p hp => by
    rcases OrdMap.mem_insert hp with rfl | hp
    · exact hv
    · exact h.of_mem hp
  push h hv := .array fun x hx => by
    cases h with
    | array h =>
      rcases List.mem_append.mp hx with hx | hx
      · exact h x hx
      · exact List.mem_singleton.mp hx ▸ hv

theorem StringsLe.mono {n k : Nat} {v : Value} (h : StringsLe n v) (hle : n ≤ k) : StringsLe k v := by
  induction h with
  | null => exact .null
  | int i => exact .int i
  | uint i => exact .uint i
  | real d => exact .real d
  | bool b => exact .bool b
  | string h => exact .string (h.trans hle)
  | array _ ih => exact .array ih
  | object _ ih => exact .object ih

/-- What a value converts to. -/
theorem StringsLe.asString_length_le {n : Nat} (hn : 43 ≤ n) {v : Value} (h : StringsLe n v)
    (hwf : v.WellFormed) {s : Bytes} (hs : v.asString = .ok s) : s.length ≤ n := by
  rcases hwf.asString_cases hs with ⟨t, rfl, rfl⟩ | hshort
  · cases h; assumption
  · exact hshort.trans hn

end Json.Value

namespace Json

open OurReader

theorem ofString_string_length {s : Bytes} {v : Value} (h : Value.ofString s = .ok v) :
    ∃ t : JString, v = .string t ∧ t.bytes.length ≤ s.length := by
  unfold Value.ofString at h
  split at h
  · cases h; exact ⟨_, rfl, List.length_take_le' ..⟩
  · cases h

theorem decodeNumber_stringsLe {n : Nat} {text : Bytes} {v : Value}
    (h : decodeNumber text = .ok v) : v.StringsLe n := by
  have hdouble : ∀ {text : Bytes}, decodeDouble text = .ok v → v.StringsLe n := by
    intro text h
    unfold decodeDouble at h
    split at h <;> cases h
    exact .real _
  unfold decodeNumber at h
  split at h <;> split at h
  · cases h; exact .int _
  · exact hdouble h
  · split at h <;> cases h
    · exact .int _
    · exact .uint _
  · exact hdouble h

/-- A string is shorter than the token that it is decoded from. -/
theorem readScalar_stringsLe {s rest : Bytes} {ok : Bool} {token : Token} {v : Value}
    (heq : skipCommentTokens s = (ok, token, rest)) (h : readScalar token = .ok v) :
    v.StringsLe s.length := by
  unfold readScalar at h
  split at h
  · exact decodeNumber_stringsLe h
  · next htype =>
    obtain ⟨str, hstr, h⟩ := bind_eq_ok.mp h
    have htoken := skipCommentTokensFrom_string (n := s.length) (s := s)
    rw [show skipCommentTokensFrom s.length s = _ from heq] at htoken
    obtain ⟨-, hle⟩ := htoken htype
    have hdecoded := decodeChars_length hstr
    rw [List.length_dropLast, List.length_tail] at hdecoded
    dsimp only at hle
    unfold stringValue at h
    split at h
    · next hv =>
      cases h
      obtain ⟨t, rfl, ht⟩ := ofString_string_length hv
      exact .string (by omega)
    · cases h
  all_goals cases h
  · exact .bool _
  · exact .bool _
  · exact .null

theorem parseFromStream_stringsLe {doc : Bytes} {root : Value}
    (h : parseFromStream doc = .ok (.ok root)) : root.StringsLe doc.length := by
  obtain ⟨rest, h⟩ := parseFromStream_eq_ok h
  refine (read_closed (Value.StringsLe.closed doc.length) (fun hs heq h => ?_) _).1 _ _ _ _
    (skipBom_length doc) h
  exact (readScalar_stringsLe heq h).mono hs

end Json

/-! ## Operations -/

theorem textOf_length {n : Nat} (hn : 43 ≤ n) {v : Value} (hwf : v.WellFormed) (h : v.StringsLe n)
    {t : JString} (ht : textOf v = .ok t) : t.bytes.length ≤ n := by
  have hs := asString_eq_textOf hwf
  rw [ht] at hs
  exact h.asString_length_le hn hwf hs

/-- The values that an operation writes. -/
theorem commandOf_writes_length {n : Nat} (hn : 43 ≤ n) {root : Value} (hwf : root.WellFormed)
    (h : root.StringsLe n) {command : Command} (hc : commandOf root = .ok command) {c : Config}
    {family : Bytes} {kvs : List (Bytes × Bytes)} (hw : command.writes c = some (family, kvs)) :
    ∀ kv ∈ kvs, kv.2.length ≤ n := by
  have hfield : ∀ {key : Bytes} {t : JString}, textOf (root.member key) = .ok t →
      t.bytes.length ≤ n := fun ht => textOf_length hn (hwf.member _) (h.member _) ht
  obtain ⟨op, -, hcases⟩ := commandOf_cases hc
  cases command with
  | put key value =>
    cases hw
    rintro kv hkv
    cases List.mem_singleton.mp hkv
    exact hfield hcases.2.2
  | putCf column key value =>
    unfold Command.writes at hw
    dsimp only at hw
    split at hw <;> cases hw
    rintro kv hkv
    cases List.mem_singleton.mp hkv
    exact hfield hcases.2.2.2
  | writeBatch items =>
    cases hw
    rintro kv hkv
    obtain ⟨⟨name, t⟩, hmem, rfl⟩ := List.mem_map.mp hkv
    have hitems := hcases.2
    unfold batchOf at hitems
    split at hitems
    · cases hitems; cases hmem
    · next ms heq =>
      obtain ⟨p, hp, ht⟩ := mem_of_mapM hitems hmem
      obtain ⟨t', ht', ht⟩ := bind_eq_ok.mp ht
      cases ht
      have hwf' := hwf.member (ascii "items")
      have h' := h.member (ascii "items")
      rw [heq] at hwf' h'
      exact textOf_length hn (hwf'.of_mem hp) (h'.of_mem hp) ht'
    · cases hitems
  | _ => cases hw

/-- No stored value is longer than `maxLength`. -/
def Bounded (contents : Contents) : Prop :=
  ∀ path family key value, contents path family key = some value → value.length ≤ maxLength

theorem Bounded.putAll {contents : Contents} (h : Bounded contents) (path family : Bytes)
    {kvs : List (Bytes × Bytes)} (hkvs : ∀ kv ∈ kvs, kv.2.length ≤ maxLength) :
    Bounded (contents.putAll path family kvs) := by
  induction kvs generalizing contents with
  | nil => exact h
  | cons kv kvs ih =>
    obtain ⟨hkv, hkvs⟩ := List.forall_mem_cons.mp hkvs
    refine ih (?_ : Bounded (contents.put path family kv.1 kv.2)) hkvs
    intro path' family' key' value hv
    unfold Families.put at hv
    split at hv
    · cases hv; exact hkv
    · exact h _ _ _ _ hv

/-- A payload that `do_read` accepts keeps the stored values short. -/
theorem Bounded.execReply {w w' : World} (hw : w.Inv) (hb : Bounded w.rocks.contents) {inp : Bytes}
    (hlen : inp.length ≤ maxLength) {reply : Value} (h : execReply inp w = .ok (reply, w')) :
    Bounded w'.rocks.contents := by
  rcases World.execReply_contents hw h with ⟨command, c, hp, heq⟩ | ⟨-, heq⟩
  · rw [heq]
    split
    · unfold Command.applied
      split
      · next family kvs hwrites =>
        obtain ⟨name, i, hq, -⟩ := hp.request
        obtain ⟨root, hparse, -, -, hcommand⟩ := requestOf_named hq
        apply hb.putAll _ _
        exact commandOf_writes_length (by decide) (Json.parseFromStream_wellFormed hparse)
          ((Json.parseFromStream_stringsLe hparse).mono hlen) hcommand.symm hwrites
      · exact hb
    · exact hb
  · rw [heq]
    exact hb

end RocksdbService
