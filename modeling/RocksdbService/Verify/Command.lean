import RocksdbService.Service.Server
import RocksdbService.Verify.Printing

/-! # Requests as the operations see them

`exec_json` takes the fields of a request out of the JSON root one by one, with accessors that may
insert members and may throw. Here the same is said in two steps: `commandOf` reads all the fields
that the operation of a root uses, `runCommand` performs it. `dispatch_eq` is that the chain over
`op` is the one after the other. -/

namespace RocksdbService

open Outcome
open Json (Value JString Members maxStringLength)

/-! ## Texts -/

/-- `asString`, as the payload of a value. -/
def textOf (v : Value) : Outcome JString := do
  let s ← v.asString
  if h : s.length ≤ maxStringLength then .ok ⟨s, h⟩ else .error .undefined

theorem asString_eq_textOf {v : Value} (h : v.WellFormed) :
    v.asString = JString.bytes <$> textOf v := by
  unfold textOf
  cases hs : v.asString with
  | error e => rfl
  | ok s => simp [h.asString_length_le hs]

/-! ## Member access -/

/-- `root'` is what accesses to members have made of `root`. -/
structure SameMembers (root root' : Value) : Prop where
  objectLike : root'.isObjectLike = true
  member : ∀ key, root'.member key = root.member key

theorem SameMembers.rfl {root : Value} (h : root.isObjectLike = true) : SameMembers root root :=
  ⟨h, fun _ => .refl _⟩

theorem SameMembers.trans {root root₁ root₂ : Value} (h : SameMembers root root₁)
    (h' : SameMembers root₁ root₂) : SameMembers root root₂ :=
  ⟨h'.objectLike, fun key => (h'.member key).trans (h.member key)⟩

/-- Reading a field gives its text and a root with the same members. -/
theorem stringField_bind {α : Type} {root root₁ : Value} (h : SameMembers root root₁)
    {key : String} {f : Bytes × Value → Outcome α} {g : Bytes → Outcome α}
    (hfg : ∀ s root₂, SameMembers root root₂ → f (s, root₂) = g s) :
    (stringField root₁ key >>= f) = ((root.member (ascii key)).asString >>= g) := by
  obtain ⟨ms, heq, hmem⟩ := Json.Value.resolveReference_eq h.objectLike (ascii key)
  have h₂ : SameMembers root (.object ms) := h.trans ⟨rfl, hmem⟩
  simp [stringField, heq, h.member, hfg _ _ h₂]

theorem member_ne_null {root : Value} {key : Bytes} {s : Bytes}
    (h : (root.member key).asString = .ok s) (hs : s ≠ []) :
    ∃ ms v, root = .object ms ∧ OrdMap.find? ms key = some v := by
  cases root with
  | object ms =>
    cases hf : OrdMap.find? ms key with
    | some v => exact ⟨ms, v, rfl, hf⟩
    | none =>
      rw [Value.member, hf] at h
      cases h
      exact absurd rfl hs
  | _ => cases h; exact absurd rfl hs

theorem isObjectLike_of_member {root : Value} {key : Bytes} {s : Bytes}
    (h : (root.member key).asString = .ok s) (hs : s ≠ []) : root.isObjectLike = true := by
  obtain ⟨ms, _, rfl, -⟩ := member_ne_null h hs
  rfl

/-! ## Commands -/

/-- An operation with its fields. -/
inductive Command
  | put (key : Bytes) (value : JString)
  | putCf (column key : Bytes) (value : JString)
  | writeBatch (items : List (Bytes × JString))
  | get (key : Bytes)
  | getCf (column key : Bytes)
  | unknown

/-- The members of the `items` of a batch. -/
def batchOf (items : Value) : Outcome (List (Bytes × JString)) :=
  match items with
  | .null => .ok []
  | .object ms => ms.mapM fun p => do return (p.1, ← textOf p.2)
  | _ => .error (.exception "in Json::Value::getMemberNames(), value must be objectValue")

/-- The operation that a root asks for. -/
def commandOf (root : Value) : Outcome Command := do
  let op ← (root.member (ascii "op")).asString
  if op = ascii "put_cf" then
    let column ← (root.member (ascii "column")).asString
    let key ← (root.member (ascii "key")).asString
    let value ← textOf (root.member (ascii "value"))
    return .putCf column key value
  else if op = ascii "put" then
    let key ← (root.member (ascii "key")).asString
    let value ← textOf (root.member (ascii "value"))
    return .put key value
  else if op = ascii "write_batch" then
    let items ← batchOf (root.member (ascii "items"))
    return .writeBatch items
  else if op = ascii "get" then
    let key ← (root.member (ascii "key")).asString
    return .get key
  else if op = ascii "get_cf" then
    let column ← (root.member (ascii "column")).asString
    let key ← (root.member (ascii "key")).asString
    return .getCf column key
  else return .unknown

section
variable {root : Value}

theorem commandOf_putCf (hop : (root.member (ascii "op")).asString = .ok (ascii "put_cf")) :
    commandOf root = (do
      let column ← (root.member (ascii "column")).asString
      let key ← (root.member (ascii "key")).asString
      let value ← textOf (root.member (ascii "value"))
      return .putCf column key value) := by
  rw [commandOf, hop]
  rfl

theorem commandOf_put (hop : (root.member (ascii "op")).asString = .ok (ascii "put")) :
    commandOf root = (do
      let key ← (root.member (ascii "key")).asString
      let value ← textOf (root.member (ascii "value"))
      return .put key value) := by
  rw [commandOf, hop]
  rfl

theorem commandOf_writeBatch (hop : (root.member (ascii "op")).asString = .ok (ascii "write_batch")) :
    commandOf root = (do return .writeBatch (← batchOf (root.member (ascii "items")))) := by
  rw [commandOf, hop]
  rfl

theorem commandOf_get (hop : (root.member (ascii "op")).asString = .ok (ascii "get")) :
    commandOf root = (do return .get (← (root.member (ascii "key")).asString)) := by
  rw [commandOf, hop]
  rfl

theorem commandOf_getCf (hop : (root.member (ascii "op")).asString = .ok (ascii "get_cf")) :
    commandOf root = (do
      let column ← (root.member (ascii "column")).asString
      let key ← (root.member (ascii "key")).asString
      return .getCf column key) := by
  rw [commandOf, hop]
  rfl

end

/-- The operation and the fields that a command has been read from. -/
theorem commandOf_cases {root : Value} {command : Command} (h : commandOf root = .ok command) :
    ∃ op, (root.member (ascii "op")).asString = .ok op ∧
      match command with
      | .put key value => op = ascii "put" ∧ (root.member (ascii "key")).asString = .ok key ∧
        textOf (root.member (ascii "value")) = .ok value
      | .putCf column key value => op = ascii "put_cf" ∧
        (root.member (ascii "column")).asString = .ok column ∧
        (root.member (ascii "key")).asString = .ok key ∧
        textOf (root.member (ascii "value")) = .ok value
      | .writeBatch items => op = ascii "write_batch" ∧
        batchOf (root.member (ascii "items")) = .ok items
      | .get key => op = ascii "get" ∧ (root.member (ascii "key")).asString = .ok key
      | .getCf column key => op = ascii "get_cf" ∧
        (root.member (ascii "column")).asString = .ok column ∧
        (root.member (ascii "key")).asString = .ok key
      | .unknown => True := by
  obtain ⟨op, hop, h⟩ := bind_eq_ok.mp h
  refine ⟨op, hop, ?_⟩
  split at h
  · next hput =>
    obtain ⟨column, hcolumn, h⟩ := bind_eq_ok.mp h
    obtain ⟨key, hkey, h⟩ := bind_eq_ok.mp h
    obtain ⟨value, hvalue, h⟩ := bind_eq_ok.mp h
    cases h
    exact ⟨hput, hcolumn, hkey, hvalue⟩
  split at h
  · next hput =>
    obtain ⟨key, hkey, h⟩ := bind_eq_ok.mp h
    obtain ⟨value, hvalue, h⟩ := bind_eq_ok.mp h
    cases h
    exact ⟨hput, hkey, hvalue⟩
  split at h
  · next hbatch =>
    obtain ⟨items, hitems, h⟩ := bind_eq_ok.mp h
    cases h
    exact ⟨hbatch, hitems⟩
  split at h
  · next hget =>
    obtain ⟨key, hkey, h⟩ := bind_eq_ok.mp h
    cases h
    exact ⟨hget, hkey⟩
  split at h
  · next hget =>
    obtain ⟨column, hcolumn, h⟩ := bind_eq_ok.mp h
    obtain ⟨key, hkey, h⟩ := bind_eq_ok.mp h
    cases h
    exact ⟨hget, hcolumn, hkey⟩
  · cases h
    trivial

/-- The pairs of a batch as RocksDB gets them. -/
def batchBytes (items : List (Bytes × JString)) : List (Bytes × Bytes) :=
  items.map (Prod.map id JString.bytes)

/-- Perform an operation on an open database. -/
def runCommand (item : Config) : Command → RocksM Value
  | .put key value => item.put key value.bytes
  | .putCf column key value => item.putCf column key value.bytes
  | .writeBatch items => fun r => do
    let (status, r) ← Rocks.write item.db (batchBytes items) r
    return (Config.writeReply status, r)
  | .get key => item.get key
  | .getCf column key => item.getCf column key
  | .unknown => fun r => .ok (errorReply 7, r)

theorem textOf_bind {α : Type} {v : Value} (h : v.WellFormed) (f : Bytes → Outcome α) :
    (v.asString >>= f) = (textOf v >>= fun s => f s.bytes) := by
  rw [asString_eq_textOf h]
  cases textOf v <;> rfl

theorem fillBatch_members {items : Value} {ms : Members}
    (h : ∀ p ∈ ms, items.constIndex p.1 = .ok p.2 ∧ p.2.WellFormed) :
    Config.fillBatch items (ms.map Prod.fst) =
      batchBytes <$> ms.mapM fun p => do return (p.1, ← textOf p.2) := by
  induction ms with
  | nil => rfl
  | cons p ms ih =>
    obtain ⟨⟨hp, hwf⟩, hms⟩ := List.forall_mem_cons.mp h
    have ih := ih hms
    unfold Config.fillBatch at ih ⊢
    simp only [List.map_cons, List.mapM_cons, hp, ih, ok_bind, bind_assoc, textOf_bind hwf]
    cases textOf p.2 with
    | error e => rfl
    | ok v => cases ms.mapM (m := Outcome) fun p => do return (p.1, ← textOf p.2) <;> rfl

/-- The loop over member names finds every member itself, since a name occurs once. -/
theorem fillBatch_eq {items : Value} (h : items.WellFormed) :
    (items.getMemberNames >>= Config.fillBatch items) = batchBytes <$> batchOf items := by
  cases h with
  | null => rfl
  | @object ms hs h =>
    refine fillBatch_members fun p hp => ⟨?_, h p hp⟩
    simp [Value.constIndex, Value.member, hs.find?_of_mem hp]
  | _ => rfl

/-- The chain over `op` reads the fields of an operation and performs it. -/
theorem dispatch_eq {root root₀ : Value} (h₀ : SameMembers root root₀) (hwf : root.WellFormed)
    {item : Config} (hdb : item.db ≠ .null) (r : Rocks) :
    (do let (op, root₁) ← stringField root₀ "op"; dispatch item root₁ (errorReply 0) op r) =
      (do let command ← commandOf root; runCommand item command r) := by
  simp only [commandOf, bind_assoc]
  refine stringField_bind h₀ fun op root₁ h₁ => ?_
  unfold dispatch
  split
  · simp only [bind_assoc]
    refine stringField_bind h₁ fun column root₂ h₂ => ?_
    refine stringField_bind h₂ fun key root₃ h₃ => ?_
    refine Eq.trans ?_ (textOf_bind (hwf.member _) fun value => item.putCf column key value r)
    exact stringField_bind h₃ fun value root₄ _ => rfl
  split
  · simp only [bind_assoc]
    refine stringField_bind h₁ fun key root₂ h₂ => ?_
    refine Eq.trans ?_ (textOf_bind (hwf.member _) fun value => item.put key value r)
    exact stringField_bind h₂ fun value root₃ _ => rfl
  split
  · obtain ⟨ms, heq, -⟩ := Json.Value.resolveReference_eq h₁.objectLike (ascii "items")
    have hfill := fillBatch_eq (hwf.member (ascii "items"))
    rw [heq, h₁.member]
    simp only [ok_bind, Config.writeBatch, if_neg hdb, bind_assoc]
    rw [← bind_assoc, hfill]
    cases batchOf (root.member (ascii "items")) <;> rfl
  split
  · simp only [bind_assoc]
    exact stringField_bind h₁ fun key root₂ _ => rfl
  split
  · simp only [bind_assoc]
    refine stringField_bind h₁ fun column root₂ h₂ => ?_
    exact stringField_bind h₂ fun key root₃ _ => rfl
  rfl

end RocksdbService
