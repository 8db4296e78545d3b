import RocksdbService.Verify.Refinement

/-! # What a query does

A query changes the maps where it writes, if RocksDB serves it, and else it is answered with an error
code and changes nothing (`Spec.step_cases`). -/

namespace RocksdbService.Spec

open Json (Value JString)

/-- What a query puts under a key of a family. -/
def Query.writes (dbName family key : Bytes) : Query → Option JString
  | .named name (.put key' value) =>
    if dbName = name ∧ family = kDefaultColumnFamilyName ∧ key = key' then some value else none
  | .named name (.putCf column key' value) =>
    if dbName = name ∧ family = column ∧ key = key' then some value else none
  | .named name (.writeBatch items) =>
    if dbName = name ∧ family = kDefaultColumnFamilyName then Families.last key items else none
  | _ => none

/-- The database, family and key that a query gets. -/
def Query.reads : Query → Option (Bytes × Bytes × Bytes)
  | .named name (.get key) => some (name, kDefaultColumnFamilyName, key)
  | .named name (.getCf column key) => some (name, column, key)
  | _ => none

theorem Query.name_of_writes {name : Bytes} {command : Command} {dbName family key : Bytes} {v : JString}
    (h : (Query.named name command).writes dbName family key = some v) : dbName = name := by
  cases command with
  | put | putCf | writeBatch =>
    unfold writes at h
    dsimp only at h
    split at h
    · next heq => exact heq.1
    · cases h
  | _ => cases h

theorem Query.name_of_reads {q : Query} {dbName family key : Bytes}
    (h : q.reads = some (dbName, family, key)) : ∃ command, q = .named dbName command := by
  cases q with
  | rejected => cases h
  | named name command =>
    cases command with
    | get | getCf =>
      cases h
      exact ⟨_, rfl⟩
    | _ => cases h

def Query.reply (q : Query) (s : State) : Value :=
  match q.reads with
  | some (dbName, family, key) => readReply (s dbName family key)
  | none => errorReply 0

/-- What a query does that is not answered with an error. -/
structure Query.Served (catalog : Catalog) (env : Env) (q : Query) (s : State) (result : Value × State) :
    Prop where
  known : ∃ name command families, q = .named name command ∧ name ≠ [] ∧ catalog name = some families ∧
    env.opened = true
  reply : result.1 = q.reply s
  state : ∀ dbName family key,
    result.2 dbName family key = (q.writes dbName family key).or (s dbName family key)

/-- Why a query is answered with an error code. -/
inductive Query.Fails (catalog : Catalog) (env : Env) : Query → Int → Prop
  | rejected : Fails catalog env .rejected 1
  | name (command : Command) : Fails catalog env (.named [] command) 6
  | database {name : Bytes} {command : Command} (h : catalog name = none) :
    Fails catalog env (.named name command) 3
  | closed {name : Bytes} {command : Command} (h : env.opened = false) :
    Fails catalog env (.named name command) 4
  | refused {name : Bytes} {command : Command} (h : env.served = false) :
    Fails catalog env (.named name command) (-2)
  | putFamily {name column key : Bytes} {value : JString} {families : List Bytes}
    (hcatalog : catalog name = some families) (h : column ∉ families) :
    Fails catalog env (.named name (.putCf column key value)) 7
  | getFamily {name column key : Bytes} {families : List Bytes}
    (hcatalog : catalog name = some families) (h : column ∉ families) :
    Fails catalog env (.named name (.getCf column key)) 7
  | operation (name : Bytes) : Fails catalog env (.named name .unknown) 7

theorem Query.Fails.code_mem {catalog : Catalog} {env : Env} {q : Query} {code : Int}
    (h : q.Fails catalog env code) : code ∈ ([-2, 7, 1, 3, 4, 6] : List Int) := by
  cases h <;> decide

/-- How a query of an open database fails that gets a key. -/
theorem Query.Fails.of_reads {catalog : Catalog} {env : Env} {q : Query} {code : Int}
    (h : q.Fails catalog env code) {dbName family key : Bytes} (hreads : q.reads = some (dbName, family, key))
    (hname : dbName ≠ []) (hknown : ∃ families, catalog dbName = some families)
    (hopened : env.opened = true) :
    (code = -2 ∧ env.served = false) ∨ (code = 7 ∧ ∀ families ∈ catalog dbName, family ∉ families) := by
  obtain ⟨command, rfl⟩ := name_of_reads hreads
  obtain ⟨families, hknown⟩ := hknown
  cases h with
  | name => exact absurd rfl hname
  | database h => cases hknown.symm.trans h
  | closed h => cases hopened.symm.trans h
  | refused h => exact .inl ⟨rfl, h⟩
  | getFamily hcatalog h =>
    cases hreads
    refine .inr ⟨rfl, fun families' hmem => ?_⟩
    cases hcatalog.symm.trans hmem
    exact h
  | putFamily | operation => cases hreads

theorem put_eq_or (s : State) (name column key' : Bytes) (value : JString) (dbName family key : Bytes) :
    s.put name column key' value dbName family key =
      (if dbName = name ∧ family = column ∧ key = key' then some value else none).or
        (s dbName family key) := by
  rw [Families.put]
  split <;> rfl

/-- An operation on an open database fails, or does what the query says. -/
theorem operate_cases {catalog : Catalog} {env : Env} {dbName : Bytes} {families : List Bytes}
    (hname : dbName ≠ []) (hcatalog : catalog dbName = some families) (hopened : env.opened = true)
    (s : State) (command : Command) :
    (∃ code, Query.Fails catalog env (.named dbName command) code ∧
        operate dbName families env.served s command = (errorReply code, s)) ∨
      Query.Served catalog env (.named dbName command) s
        (operate dbName families env.served s command) := by
  have hknown : ∃ name command' families, Query.named dbName command = .named name command' ∧ name ≠ [] ∧
      catalog name = some families ∧ env.opened = true := ⟨_, _, _, rfl, hname, hcatalog, hopened⟩
  cases hserved : env.served with
  | false =>
    cases command with
    | unknown => exact .inl ⟨7, .operation dbName, rfl⟩
    | putCf column =>
      rw [operate]
      split
      · next h => exact .inl ⟨7, .putFamily hcatalog h, rfl⟩
      · exact .inl ⟨-2, .refused hserved, rfl⟩
    | getCf column =>
      rw [operate]
      split
      · next h => exact .inl ⟨7, .getFamily hcatalog h, rfl⟩
      · exact .inl ⟨-2, .refused hserved, rfl⟩
    | _ => exact .inl ⟨-2, .refused hserved, rfl⟩
  | true =>
    cases command with
    | unknown => exact .inl ⟨7, .operation dbName, rfl⟩
    | put key value => exact .inr ⟨hknown, rfl, put_eq_or s dbName _ key value⟩
    | putCf column key value =>
      rw [operate]
      split
      · next h => exact .inl ⟨7, .putFamily hcatalog h, rfl⟩
      · exact .inr ⟨hknown, rfl, put_eq_or s dbName column key value⟩
    | writeBatch items =>
      refine .inr ⟨hknown, rfl, fun dbName' family key => ?_⟩
      simp only [operate, if_true, Query.writes]
      split
      · next h =>
        obtain ⟨rfl, rfl⟩ := h
        exact Families.putAll_self _ _ _ _ _
      · next h => exact Families.putAll_of_forall_ne fun _ _ h' => h ⟨h'.1, h'.2.1⟩
    | get key => exact .inr ⟨hknown, rfl, fun _ _ _ => rfl⟩
    | getCf column key =>
      rw [operate]
      split
      · next h => exact .inl ⟨7, .getFamily hcatalog h, rfl⟩
      · exact .inr ⟨hknown, rfl, fun _ _ _ => rfl⟩

/-- Everything that the machine does on a query. -/
theorem step_cases (catalog : Catalog) (q : Query) (env : Env) (s : State) :
    (∃ code, q.Fails catalog env code ∧ step catalog (q, env) s = (errorReply code, s)) ∨
      q.Served catalog env s (step catalog (q, env) s) := by
  cases q with
  | rejected => exact .inl ⟨1, .rejected, rfl⟩
  | named dbName command =>
    unfold step
    dsimp only
    split
    · next hname => exact .inl ⟨6, hname ▸ .name command, rfl⟩
    next hname =>
    split
    · next hcatalog => exact .inl ⟨3, .database hcatalog, rfl⟩
    next hcatalog =>
    split
    · next hopened => exact operate_cases hname hcatalog hopened s command
    · next hclosed => exact .inl ⟨4, .closed (Bool.eq_false_of_not_eq_true hclosed), rfl⟩

/-- A value stays where it is unless another one is put there. -/
theorem step_keeps {catalog : Catalog} {q : Query} {env : Env} {s : State} {dbName family key : Bytes}
    {v : JString} (hq : ∀ v', q.writes dbName family key = some v' → v' = v)
    (hs : s dbName family key = some v) : (step catalog (q, env) s).2 dbName family key = some v := by
  rcases step_cases catalog q env s with ⟨code, -, heq⟩ | h
  · rw [heq]
    exact hs
  · rw [h.state, hs]
    cases hw : q.writes dbName family key with
    | none => rfl
    | some v' => rw [hq v' hw, Option.some_or]

/-- Nothing is put in a database that is not served. -/
theorem step_unknown {catalog : Catalog} {q : Query × Env} {s : State} {dbName : Bytes}
    (hunknown : catalog dbName = none) (hs : ∀ family key, s dbName family key = none) (family key : Bytes) :
    (step catalog q s).2 dbName family key = none := by
  rcases step_cases catalog q.1 q.2 s with ⟨code, -, heq⟩ | h
  · rw [heq]
    exact hs family key
  · obtain ⟨name, command, families, hq, -, hcatalog, -⟩ := h.known
    have hwrites : q.1.writes dbName family key = none := by
      refine Option.eq_none_iff_forall_ne_some.mpr fun v hv => ?_
      rw [hq] at hv
      rw [Query.name_of_writes hv] at hunknown
      cases hunknown.symm.trans hcatalog
    rw [h.state, hwrites]
    exact hs family key

/-! ## Replies -/

/-- What the maps answer: a code, or a value. -/
inductive IsReply : Value → Prop
  | code {code : Int} (h : code ∈ ([0, -2, 7, 1, 3, 4, 6] : List Int)) : IsReply (errorReply code)
  | value (v : JString) : IsReply (readReply (some v))

theorem Query.isReply_reply (q : Query) (s : State) : IsReply (q.reply s) := by
  unfold Query.reply
  split
  · next dbName family key _ =>
    cases s dbName family key with
    | none => exact .code (by decide)
    | some v => exact .value v
  · exact .code (by decide)

theorem isReply_step (catalog : Catalog) (q : Query × Env) (s : State) :
    IsReply (step catalog q s).1 := by
  rcases step_cases catalog q.1 q.2 s with ⟨code, hcode, heq⟩ | h
  · rw [heq]
    exact .code (List.mem_cons_of_mem _ hcode.code_mem)
  · rw [h.reply]
    exact q.1.isReply_reply s

end RocksdbService.Spec
