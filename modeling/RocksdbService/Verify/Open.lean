import RocksdbService.Service.Config

/-! # What `config::open` does

`Config.open_effect` says once what a call of `open` can do: it answers from `is_open`, or it leaves
the configuration open on a fresh live object with one handle per descriptor, or it leaves it closed
with a null pointer; besides that it only touches the disk and the count of calls. The invariants of
the service are derived from this. -/

namespace RocksdbService

open Outcome
open Json (Value)

namespace Rocks

/-- Object numbers from `next` on have not been given out. -/
def Fresh (r : Rocks) : Prop := ∀ id, (r.live id).isSome → id < r.next

/-- The part of RocksDB's state that only reads, writes, opens and deletes concern is the same. -/
structure SameData (r r' : Rocks) : Prop where
  api : r'.api = r.api
  answers : r'.answers = r.answers
  contents : r'.contents = r.contents

theorem SameData.rfl {r : Rocks} : SameData r r := ⟨.refl _, .refl _, .refl _⟩

theorem SameData.trans {r₁ r₂ r₃ : Rocks} (h : SameData r₁ r₂) (h' : SameData r₂ r₃) :
    SameData r₁ r₃ :=
  ⟨h'.api.trans h.api, h'.answers.trans h.answers, h'.contents.trans h.contents⟩

/-- A successful `DB::Open`. -/
structure Opened (options : Options) (path : Bytes) (families : List Bytes) (r r' : Rocks)
    (handles : List Handle) (db : DbPtr) : Prop where
  data : SameData r r'
  next : r'.next = r.next + 1
  live : r'.live = fun id => if id = r.next then some ⟨path, options⟩ else r.live id
  handles : handles = families.map (Handle.mk r.next)
  db : db = .object r.next

/-- Only the disk and the count of calls have changed. -/
structure Quiet (r r' : Rocks) : Prop where
  data : SameData r r'
  next : r'.next = r.next
  live : r'.live = r.live

theorem Quiet.rfl {r : Rocks} : Quiet r r := ⟨.rfl, .refl _, .refl _⟩

theorem Quiet.trans {r₁ r₂ r₃ : Rocks} (h : Quiet r₁ r₂) (h' : Quiet r₂ r₃) : Quiet r₁ r₃ :=
  ⟨h.data.trans h'.data, h'.next.trans h.next, h'.live.trans h.live⟩

theorem dbOpen_cases (options : Options) (path : Bytes) (families : List Bytes) (r : Rocks) :
    ∃ status handles db r', dbOpen options path families r = .ok ((status, handles, db), r') ∧
      (status = .ok ∧ Opened options path families r r' handles db ∨
        status = .failed ∧ handles = [] ∧ db = .null ∧ Quiet r r') := by
  unfold dbOpen
  cases ha : r.answers r.calls with
  | serve =>
    simp only [answer, ha]
    exact ⟨_, _, _, _, rfl, .inl ⟨rfl, ⟨.refl _, .refl _, .refl _⟩, rfl, rfl, rfl, rfl⟩⟩
  | refuse b =>
    simp only [answer, ha]
    refine ⟨_, _, _, _, rfl, .inr ⟨rfl, rfl, rfl, ?_⟩⟩
    cases b <;> exact ⟨⟨rfl, rfl, rfl⟩, rfl, rfl⟩

theorem createColumnFamily_quiet {db : DbPtr} {name : Bytes} {r r' : Rocks} {status : Status}
    (h : createColumnFamily db name r = .ok (status, r')) : Quiet r r' := by
  unfold createColumnFamily at h
  obtain ⟨⟨id, obj⟩, -, h⟩ := bind_eq_ok.mp h
  cases ha : r.answers r.calls <;> simp only [answer, ha] at h <;> cases h <;>
    exact ⟨⟨rfl, rfl, rfl⟩, rfl, rfl⟩

theorem deref_object {r : Rocks} {id : Nat} {db : OpenDb} (h : r.live id = some db) :
    r.deref (.object id) = .ok (id, db) := by simp [deref, h]

/-- Deleting a live object. -/
theorem deleteDb_object {r : Rocks} {id : Nat} {db : OpenDb} (h : r.live id = some db) :
    deleteDb (.object id) r =
      .ok ((), { r with live := fun j => if j = id then none else r.live j }) := by
  simp [deleteDb, deref_object h]

end Rocks

namespace Config

open Rocks

theorem createFamilies_quiet {db : DbPtr} {names : List Bytes} {status : Status} {r r' : Rocks}
    (h : createFamilies db status names r = .ok ((), r')) : Quiet r r' := by
  induction names generalizing status r with
  | nil => cases h; exact .rfl
  | cons name names ih =>
    rw [createFamilies] at h
    obtain ⟨⟨status', r₁⟩, h₁, h⟩ := bind_eq_ok.mp h
    obtain ⟨⟨⟩, -, h⟩ := bind_eq_ok.mp h
    refine Quiet.trans ?_ (ih h)
    split at h₁
    · exact createColumnFamily_quiet h₁
    · cases h₁; exact .rfl

/-- First-time creation leaves no object behind; its pointer is overwritten by the final open. -/
theorem createDb_effect {c c' : Config} {r r' : Rocks} (h : c.createDb r = .ok (c', r')) :
    c' = { c with db := c'.db } ∧ SameData r r' ∧ r.next ≤ r'.next ∧
      (r.Fresh → r'.live = r.live) := by
  obtain ⟨⟨⟨status, handles, db⟩, r₁⟩, h₁, h⟩ := bind_eq_ok.mp h
  obtain ⟨⟨⟩, hs, h⟩ := bind_eq_ok.mp h
  obtain ⟨⟨⟨⟩, r₂⟩, h₂, h⟩ := bind_eq_ok.mp h
  obtain ⟨⟨⟨⟩, r₃⟩, h₃, h⟩ := bind_eq_ok.mp h
  cases h
  have hq := createFamilies_quiet h₂
  obtain ⟨status', handles', db', r₁', ho, hc⟩ := dbOpen_cases
    (r.api.defaults.set .createIfMissing true) c.path [kDefaultColumnFamilyName] r
  rw [ho] at h₁
  cases h₁
  rcases hc with ⟨rfl, O⟩ | ⟨rfl, -⟩
  · cases O.db
    have hlive : r₂.live r.next = some ⟨c.path, r.api.defaults.set .createIfMissing true⟩ := by
      rw [hq.live, O.live]; simp
    rw [deleteDb_object hlive] at h₃
    cases h₃
    refine ⟨rfl, O.data.trans ⟨hq.data.api, hq.data.answers, hq.data.contents⟩, ?_, fun hr => ?_⟩
    · rw [show ({ r₂ with live := _ } : Rocks).next = r₂.next from rfl, hq.next, O.next]
      exact Nat.le_succ _
    · funext id
      simp only [hq.live, O.live]
      split
      · next heq =>
        subst heq
        cases hid : r.live r.next with
        | none => rfl
        | some _ => exact absurd (hr r.next (by simp [hid])) (lt_irrefl _)
      · rfl
  · cases hs

/-- The effect of a call of `open` that returns. -/
structure OpenEffect (c : Config) (r : Rocks) (reply : Value) (c' : Config) (r' : Rocks) :
    Prop where
  fixed : c' = { c with isOpen := c'.isOpen, handles := c'.handles, db := c'.db }
  data : SameData r r'
  next : r.next ≤ r'.next
  outcome :
    (c.isOpen = true ∧ reply = errorReply 0 ∧ c' = c ∧ r' = r) ∨
    (c.isOpen = false ∧ c'.isOpen = true ∧ reply = errorReply 0 ∧
      ∃ id, r.next ≤ id ∧ id < r'.next ∧ c'.db = .object id ∧
        r'.live id = some ⟨c.path, if c.isCf then r.api.defaults else c.options⟩ ∧
        (r.Fresh → ∀ j, j ≠ id → r'.live j = r.live j) ∧
        (c.isCf = true → c'.handles = c.columnFamilies.map (Handle.mk id))) ∨
    (c.isOpen = false ∧ c'.isOpen = false ∧ reply = errorReply 4 ∧ c'.db = .null ∧
      (r.Fresh → r'.live = r.live))

theorem openPlain_effect {c c' : Config} {r r' : Rocks} {status : Status}
    (h : c.openPlain r = .ok ((status, c'), r')) :
    c' = { c with db := c'.db } ∧
      (status = .ok ∧ Opened c.options c.path [kDefaultColumnFamilyName] r r'
          [⟨r.next, kDefaultColumnFamilyName⟩] c'.db ∨
        status = .failed ∧ c'.db = .null ∧ Quiet r r') := by
  obtain ⟨⟨⟨status', handles, db⟩, r₁⟩, h₁, h⟩ := bind_eq_ok.mp h
  cases h
  obtain ⟨_, _, _, _, ho, hc⟩ := dbOpen_cases c.options c.path [kDefaultColumnFamilyName] r
  rw [ho] at h₁
  cases h₁
  refine ⟨rfl, ?_⟩
  rcases hc with ⟨rfl, O⟩ | ⟨rfl, rfl, rfl, Q⟩
  · cases O.handles
    exact .inl ⟨rfl, O⟩
  · exact .inr ⟨rfl, rfl, Q⟩

theorem openFamilies_effect {c c' : Config} {r r' : Rocks} {status : Status}
    (h : c.openFamilies r = .ok ((status, c'), r')) :
    c' = { c with handles := c'.handles, db := c'.db } ∧
      ∃ r₁, SameData r r₁ ∧ r.next ≤ r₁.next ∧ (r.Fresh → r₁.live = r.live) ∧
        (status = .ok ∧
            Opened r.api.defaults c.path c.columnFamilies r₁ r' c'.handles c'.db ∨
          status = .failed ∧ c'.db = .null ∧ Quiet r₁ r') := by
  obtain ⟨⟨c₁, r₁⟩, h₁, h⟩ := bind_eq_ok.mp h
  obtain ⟨⟨⟨status', handles, db⟩, r₂⟩, h₂, h⟩ := bind_eq_ok.mp h
  cases h
  have hcreate : c₁ = { c with db := c₁.db } ∧ SameData r r₁ ∧ r.next ≤ r₁.next ∧
      (r.Fresh → r₁.live = r.live) := by
    split at h₁
    · exact createDb_effect h₁
    · cases h₁; exact ⟨rfl, .rfl, le_rfl, fun _ => rfl⟩
  obtain ⟨hc₁, hdata, hnext, hlive⟩ := hcreate
  obtain ⟨_, _, _, _, ho, hc⟩ := dbOpen_cases r₁.api.defaults c₁.path c₁.columnFamilies r₁
  rw [ho] at h₂
  cases h₂
  refine ⟨by rw [hc₁], r₁, hdata, hnext, hlive, ?_⟩
  rcases hc with ⟨rfl, O⟩ | ⟨rfl, rfl, rfl, Q⟩
  · rw [hc₁, hdata.api] at O
    exact .inl ⟨rfl, O⟩
  · exact .inr ⟨rfl, rfl, Q⟩

theorem open_effect {c c' : Config} {r r' : Rocks} {reply : Value}
    (h : c.open r = .ok ((reply, c'), r')) : OpenEffect c r reply c' r' := by
  unfold Config.open at h
  split at h
  · next hopen =>
    cases h
    exact ⟨rfl, .rfl, le_rfl, .inl ⟨hopen, rfl, rfl, rfl⟩⟩
  next hopen =>
  have hclosed : c.isOpen = false := by simpa using hopen
  obtain ⟨⟨⟨status, c₁⟩, r₁⟩, h₁, h⟩ := bind_eq_ok.mp h
  split at h₁
  · next hcf =>
    have hcf : c.isCf = false := by simpa using hcf
    obtain ⟨hc₁, hc⟩ := openPlain_effect h₁
    rcases hc with ⟨rfl, O⟩ | ⟨rfl, hdb, Q⟩
    · cases h
      refine ⟨by rw [hc₁], O.data, O.next ▸ Nat.le_succ _, .inr (.inl ⟨hclosed, rfl, rfl, r.next,
        le_rfl, O.next ▸ Nat.lt_succ_self _, O.db, ?_, fun _ j hj => ?_, fun h => ?_⟩)⟩
      · simp [O.live, hcf]
      · rw [O.live]; exact if_neg hj
      · rw [hcf] at h; cases h
    · cases h
      exact ⟨by rw [hc₁], Q.data, Q.next.ge,
        .inr (.inr ⟨hclosed, by rw [hc₁]; exact hclosed, rfl, hdb, fun _ => Q.live⟩)⟩
  · next hcf =>
    have hcf : c.isCf = true := by simpa using hcf
    obtain ⟨hc₁, r₂, hdata, hnext, hlive, hc⟩ := openFamilies_effect h₁
    rcases hc with ⟨rfl, O⟩ | ⟨rfl, hdb, Q⟩
    · cases h
      refine ⟨by rw [hc₁], hdata.trans O.data, hnext.trans (O.next ▸ Nat.le_succ _),
        .inr (.inl ⟨hclosed, rfl, rfl, r₂.next, hnext, O.next ▸ Nat.lt_succ_self _, O.db, ?_,
          fun hr j hj => ?_, fun _ => O.handles⟩)⟩
      · simp [O.live, hcf]
      · rw [O.live, ← hlive hr]; exact if_neg hj
    · cases h
      exact ⟨by rw [hc₁], hdata.trans Q.data, hnext.trans Q.next.ge, .inr (.inr ⟨hclosed,
        by rw [hc₁]; exact hclosed, rfl, hdb, fun hr => Q.live.trans (hlive hr)⟩)⟩

/-- `open` keeps object numbers fresh. -/
theorem OpenEffect.fresh {c c' : Config} {r r' : Rocks} {reply : Value}
    (H : OpenEffect c r reply c' r') (hr : r.Fresh) : r'.Fresh := by
  intro j hj
  rcases H.outcome with ⟨-, -, -, rfl⟩ | ⟨-, -, -, id, -, hlt, -, -, hlive, -⟩ |
    ⟨-, -, -, -, hlive⟩
  · exact hr j hj
  · by_cases heq : j = id
    · exact heq ▸ hlt
    · rw [hlive hr j heq] at hj
      exact (hr j hj).trans_le H.next
  · rw [hlive hr] at hj
    exact (hr j hj).trans_le H.next

end Config

/-- The configuration is open on the object `id`. -/
structure Config.OpenOn (c : Config) (r : Rocks) (id : Nat) : Prop where
  db : c.db = .object id
  live : r.live id = some ⟨c.path, if c.isCf then r.api.defaults else c.options⟩
  handles : c.isCf = true → c.handles = c.columnFamilies.map (Handle.mk id)

/-- What the configuration says, without what `open` sets. -/
def Config.settings (c : Config) : Config :=
  { c with isOpen := false, handles := [], db := .indeterminate }

theorem Config.settings_eq_iff {c c' : Config} : c'.settings = c.settings ↔
    c'.name = c.name ∧ c'.path = c.path ∧ c'.options = c.options ∧ c'.cfNames = c.cfNames ∧
      c'.isCf = c.isCf := by
  simp [Config.settings]

/-- `open` changes nothing that the configuration says. -/
theorem Config.OpenEffect.settings {c c' : Config} {r r' : Rocks} {reply : Value}
    (H : OpenEffect c r reply c' r') : c'.settings = c.settings := by
  rw [H.fixed]; rfl

namespace Config

open Rocks

/-- A configuration that `open` has opened stands on a live object. -/
theorem OpenEffect.openOn {c c' : Config} {r r' : Rocks} {reply : Value}
    (H : OpenEffect c r reply c' r') (ho : c.isOpen = false) (ho' : c'.isOpen = true) :
    ∃ id, c'.OpenOn r' id := by
  obtain ⟨-, hpath, hoptions, hnames, hcf⟩ := settings_eq_iff.mp H.settings
  have hfam : c'.columnFamilies = c.columnFamilies := by simp [columnFamilies, hnames]
  rcases H.outcome with ⟨h, -⟩ | ⟨-, -, -, id, -, -, hdb, hid, -, hh⟩ | ⟨-, h, -⟩
  · rw [ho] at h; cases h
  · refine ⟨id, hdb, ?_, fun h => ?_⟩
    · rw [hid, hpath, hoptions, hcf, H.data.api]
    · rw [hfam]; exact hh (hcf ▸ h)
  · rw [ho'] at h; cases h

/-- A configuration stays open on its object while others come and go. -/
theorem OpenOn.of_live {c : Config} {r r' : Rocks} {id : Nat} (h : c.OpenOn r id)
    (hapi : r'.api = r.api) (hlive : r'.live id = r.live id) : c.OpenOn r' id :=
  ⟨h.db, by rw [hlive, hapi]; exact h.live, h.handles⟩

/-! ## How `open` ends when it does not return -/

theorem assertTrue_fault {b : Bool} {f : Fault} (h : assertTrue b = .error f) : f = .assertion := by
  unfold assertTrue at h
  split at h <;> cases h
  rfl

theorem createColumnFamily_object {id : Nat} {db : OpenDb} {r : Rocks} (name : Bytes)
    (h : r.live id = some db) : ∃ status r', createColumnFamily (.object id) name r =
      .ok (status, r') := by
  unfold createColumnFamily
  simp only [deref_object h, ok_bind]
  cases ha : r.answers r.calls <;> simp only [answer, ha] <;> exact ⟨_, _, rfl⟩

theorem createFamilies_fault {id : Nat} {db : OpenDb} {names : List Bytes} {status : Status}
    {r : Rocks} {f : Fault} (hid : r.live id = some db)
    (h : createFamilies (.object id) status names r = .error f) : f = .assertion := by
  induction names generalizing status r with
  | nil => cases h
  | cons name names ih =>
    rw [createFamilies] at h
    rcases bind_eq_error.mp h with h | ⟨⟨status', r'⟩, h', h⟩
    · split at h
      · obtain ⟨_, _, hc⟩ := createColumnFamily_object name hid
        rw [hc] at h; cases h
      · cases h
    · have hid' : r'.live id = some db := by
        split at h'
        · rw [(createColumnFamily_quiet h').live]; exact hid
        · cases h'; exact hid
      rcases bind_eq_error.mp h with h | ⟨⟨⟩, -, h⟩
      · exact assertTrue_fault h
      · exact ih hid' h

theorem createDb_fault {c : Config} {r : Rocks} {f : Fault} (h : c.createDb r = .error f) :
    f = .assertion := by
  unfold createDb at h
  obtain ⟨status, handles, db, r₁, ho, hc⟩ := dbOpen_cases
    (r.api.defaults.set .createIfMissing true) c.path [kDefaultColumnFamilyName] r
  simp only [ho, ok_bind] at h
  rcases bind_eq_error.mp h with h | ⟨⟨⟩, hs, h⟩
  · exact assertTrue_fault h
  rcases hc with ⟨rfl, O⟩ | ⟨rfl, -⟩
  · cases O.db
    have hlive : ∃ db, r₁.live r.next = some db := ⟨_, by rw [O.live]; exact if_pos rfl⟩
    obtain ⟨db, hlive⟩ := hlive
    rcases bind_eq_error.mp h with h | ⟨⟨⟨⟩, r₂⟩, h₂, h⟩
    · exact createFamilies_fault hlive h
    · have hlive₂ : r₂.live r.next = some db := by rw [(createFamilies_quiet h₂).live]; exact hlive
      simp only [deleteDb_object hlive₂] at h
      cases h
  · cases hs

/-- Only an assertion keeps `open` from returning. -/
theorem open_fault {c : Config} {r : Rocks} {f : Fault} (h : c.open r = .error f) :
    f = .assertion := by
  have hopen : ∀ (options : Options) (path : Bytes) (families : List Bytes) (r : Rocks) (e : Fault),
      dbOpen options path families r ≠ .error e := by
    intro options path families r e he
    obtain ⟨_, _, _, _, ho, -⟩ := dbOpen_cases options path families r
    rw [ho] at he
    cases he
  unfold Config.open at h
  split at h
  · cases h
  rcases bind_eq_error.mp h with h | ⟨⟨⟨status, c'⟩, r'⟩, -, h⟩
  · split at h
    · rcases bind_eq_error.mp h with h | ⟨_, -, h⟩
      · exact absurd h (hopen _ _ _ _ _)
      · cases h
    · rcases bind_eq_error.mp h with h | ⟨⟨c', r'⟩, -, h⟩
      · split at h
        · exact createDb_fault h
        · cases h
      · rcases bind_eq_error.mp h with h | ⟨_, -, h⟩
        · exact absurd h (hopen _ _ _ _ _)
        · cases h
  · dsimp only at h
    split at h <;> cases h

end Config

end RocksdbService
