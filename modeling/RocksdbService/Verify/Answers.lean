import RocksdbService.Verify.Exec

/-! # The calls of `config::open`

Which calls of RocksDB `open` makes is known before it runs: one `DB::Open`, and before it, for a
configuration with families whose path does not exist, one to create the database and one for each
family. It returns exactly if those before the last are served, and the last one decides whether the
configuration is open then (`Config.open_answers`). -/

namespace RocksdbService

open Outcome
open Json (Value)

namespace Rocks

/-- The next `n` calls are served. -/
def ServesFor (r : Rocks) (n : Nat) : Prop := ∀ k < n, r.answers (r.calls + k) = .serve

theorem servesFor_succ {r r' : Rocks} {n : Nat} (hanswers : r'.answers = r.answers)
    (hcalls : r'.calls = r.calls + 1) (h : r.answers r.calls = .serve) :
    r.ServesFor (n + 1) ↔ r'.ServesFor n := by
  constructor
  · intro hs k hk
    rw [hanswers, hcalls, Nat.add_assoc, Nat.add_comm 1 k]
    exact hs (k + 1) (Nat.succ_lt_succ hk)
  · intro hs k hk
    cases k with
    | zero => exact h
    | succ k =>
      have := hs k (Nat.lt_of_succ_lt_succ hk)
      rwa [hanswers, hcalls, Nat.add_assoc, Nat.add_comm 1 k] at this

theorem not_servesFor_succ {r : Rocks} {n : Nat} {b : Bool} (h : r.answers r.calls = .refuse b) :
    ¬ r.ServesFor (n + 1) := by
  intro hs
  have := hs 0 (Nat.succ_pos n)
  rw [Nat.add_zero, h] at this
  cases this

theorem dbOpen_calls {options : Options} {path : Bytes} {families : List Bytes} {r r' : Rocks}
    {status : Status} {handles : List Handle} {db : DbPtr}
    (h : dbOpen options path families r = .ok ((status, handles, db), r')) :
    r'.calls = r.calls + 1 ∧ (status.isOk = true ↔ r.answers r.calls = .serve) := by
  unfold dbOpen at h
  cases ha : r.answers r.calls with
  | serve => simp only [answer, ha] at h; cases h; exact ⟨rfl, by simp [Status.isOk]⟩
  | refuse b => simp only [answer, ha] at h; cases h; cases b <;> exact ⟨rfl, by simp [Status.isOk]⟩

end Rocks

namespace Config

open Rocks

/-- How many families are not the default one. -/
def extraFamilies (names : List Bytes) : Nat :=
  (names.filter (· ≠ kDefaultColumnFamilyName)).length

theorem createFamilies_answers (names : List Bytes) {id : Nat} {db : OpenDb} {r : Rocks}
    (hid : r.live id = some db) :
    (Returns (createFamilies (.object id) .ok names r) ↔ r.ServesFor (extraFamilies names)) ∧
      ∀ r', createFamilies (.object id) .ok names r = .ok ((), r') →
        r'.calls = r.calls + extraFamilies names := by
  induction names generalizing r with
  | nil =>
    refine ⟨iff_of_true ⟨_, rfl⟩ fun k hk => absurd hk (Nat.not_lt_zero k), fun r' h => ?_⟩
    cases h
    rfl
  | cons name names ih =>
    by_cases hname : name = kDefaultColumnFamilyName
    · have hn : extraFamilies (name :: names) = extraFamilies names := by
        simp [extraFamilies, hname]
      have hstep : createFamilies (.object id) .ok (name :: names) r =
          createFamilies (.object id) .ok names r := by
        simp [createFamilies, hname, assertTrue, Status.isOk]
      rw [hn, hstep]
      exact ih hid
    · have hn : extraFamilies (name :: names) = extraFamilies names + 1 := by
        simp [extraFamilies, hname]
      rw [hn]
      cases ha : r.answers r.calls with
      | serve =>
        obtain ⟨r₁, hstep, hanswers, hcalls, hlive⟩ : ∃ r₁,
            createFamilies (.object id) .ok (name :: names) r =
              createFamilies (.object id) .ok names r₁ ∧
            r₁.answers = r.answers ∧ r₁.calls = r.calls + 1 ∧ r₁.live = r.live := by
          refine ⟨{ r with calls := r.calls + 1 }.addFamilies db.path [name], ?_, rfl, rfl, rfl⟩
          simp [createFamilies, hname, createColumnFamily, deref_object hid, answer, ha, assertTrue,
            Status.isOk]
        obtain ⟨hret, hend⟩ := ih (r := r₁) (by rw [hlive]; exact hid)
        rw [hstep, servesFor_succ hanswers hcalls ha]
        exact ⟨hret, fun r' h => by rw [hend r' h, hcalls]; omega⟩
      | refuse b =>
        have hstep : createFamilies (.object id) .ok (name :: names) r = .error .assertion := by
          simp [createFamilies, hname, createColumnFamily, deref_object hid, answer, ha, assertTrue,
            Status.isOk]
        rw [hstep]
        refine ⟨iff_of_false (not_returns_error _) (not_servesFor_succ ha), fun r' h => ?_⟩
        cases h

theorem createDb_answers (c : Config) (r : Rocks) :
    (Returns (c.createDb r) ↔ r.ServesFor (extraFamilies c.cfNames + 1)) ∧
      ∀ c' r', c.createDb r = .ok (c', r') → r'.calls = r.calls + (extraFamilies c.cfNames + 1) := by
  obtain ⟨status, handles, db, r₁, ho, hc⟩ := dbOpen_cases
    (r.api.defaults.set .createIfMissing true) c.path [kDefaultColumnFamilyName] r
  obtain ⟨hcalls, hstatus⟩ := dbOpen_calls ho
  rcases hc with ⟨rfl, O⟩ | ⟨rfl, -, -, -⟩
  · have ha : r.answers r.calls = .serve := hstatus.mp rfl
    cases O.db
    have hlive : ∃ o, r₁.live r.next = some o := ⟨_, by rw [O.live]; exact if_pos rfl⟩
    obtain ⟨o, hlive⟩ := hlive
    obtain ⟨hret, hend⟩ := createFamilies_answers c.cfNames hlive
    rw [servesFor_succ O.data.answers hcalls ha, ← hret]
    unfold createDb
    simp only [ho, ok_bind, assertTrue, Status.isOk, if_true]
    cases hf : createFamilies (.object r.next) .ok c.cfNames r₁ with
    | error e => exact ⟨iff_of_false (not_returns_error _) (not_returns_error _), nofun⟩
    | ok p =>
      obtain ⟨⟨⟩, r₂⟩ := p
      have hlive₂ : r₂.live r.next = some o := by rw [(createFamilies_quiet hf).live]; exact hlive
      simp only [ok_bind, deleteDb_object hlive₂, pure_eq_ok]
      refine ⟨iff_of_true (returns_ok _) (returns_ok _), fun c' r' h => ?_⟩
      cases h
      change r₂.calls = _
      rw [hend r₂ hf, hcalls]
      omega
  · have hstep : c.createDb r = .error .assertion := by
      unfold createDb
      simp only [ho, ok_bind]
      rfl
    rw [hstep]
    cases ha : r.answers r.calls with
    | serve => exact absurd (hstatus.mpr ha) (by decide)
    | refuse b => exact ⟨iff_of_false (not_returns_error _) (not_servesFor_succ ha), nofun⟩

/-- How many calls `open` makes before its last one. -/
def creationCalls (c : Config) (r : Rocks) : Nat :=
  if c.isCf ∧ r.pathExists c.path = false then extraFamilies c.cfNames + 1 else 0

/-- How many calls `open` makes if it returns. -/
def openCalls (c : Config) (r : Rocks) : Nat := if c.isOpen then 0 else c.creationCalls r + 1

/-- No assertion of `open` fails. -/
def OpenReturns (c : Config) (r : Rocks) : Prop := c.isOpen = true ∨ r.ServesFor (c.creationCalls r)

/-- `open` leaves the configuration open, if it returns. -/
def Opens (c : Config) (r : Rocks) : Prop :=
  c.isOpen = true ∨ r.answers (r.calls + c.creationCalls r) = .serve

instance (c : Config) (r : Rocks) : Decidable (c.Opens r) :=
  inferInstanceAs (Decidable (_ ∨ _))

/-- The calls of the branches of `open`. -/
theorem openBranch_answers (c : Config) (r : Rocks) :
    (Returns (if !c.isCf then c.openPlain r else c.openFamilies r) ↔
        r.ServesFor (c.creationCalls r)) ∧
      ∀ status c₁ r₁,
        (if !c.isCf then c.openPlain r else c.openFamilies r) = .ok ((status, c₁), r₁) →
        (status.isOk = true ↔ r.answers (r.calls + c.creationCalls r) = .serve) ∧
          r₁.calls = r.calls + (c.creationCalls r + 1) := by
  have none : r.ServesFor 0 := nofun
  cases hcf : c.isCf with
  | false =>
    have hn : c.creationCalls r = 0 := by simp [creationCalls, hcf]
    rw [hn]
    obtain ⟨status, handles, db, r₁, ho, -⟩ :=
      dbOpen_cases c.options c.path [kDefaultColumnFamilyName] r
    obtain ⟨hcalls, hstatus⟩ := dbOpen_calls ho
    have hplain : c.openPlain r = .ok ((status, { c with db }), r₁) := by simp [openPlain, ho]
    simp only [Bool.not_false, if_true, hplain]
    refine ⟨iff_of_true (returns_ok _) none, fun status' c' r' h => ?_⟩
    cases h
    exact ⟨hstatus, hcalls⟩
  | true =>
    simp only [Bool.not_true, Bool.false_eq_true, if_false]
    obtain ⟨hret, hend⟩ : (Returns (if !r.pathExists c.path then c.createDb r else .ok (c, r)) ↔
          r.ServesFor (c.creationCalls r)) ∧
        ∀ c₁ r₁, (if !r.pathExists c.path then c.createDb r else .ok (c, r)) = .ok (c₁, r₁) →
          r₁.answers = r.answers ∧ r₁.calls = r.calls + c.creationCalls r := by
      cases hpath : r.pathExists c.path with
      | true =>
        have hn : c.creationCalls r = 0 := by simp [creationCalls, hpath]
        rw [hn]
        exact ⟨iff_of_true (returns_ok _) none, fun c₁ r₁ h => by cases h; exact ⟨rfl, rfl⟩⟩
      | false =>
        have hn : c.creationCalls r = extraFamilies c.cfNames + 1 := by
          simp [creationCalls, hcf, hpath]
        rw [hn]
        obtain ⟨hret, hend⟩ := createDb_answers c r
        exact ⟨hret, fun c₁ r₁ h => ⟨(createDb_effect h).2.1.answers, hend c₁ r₁ h⟩⟩
    rw [← hret]
    unfold openFamilies
    cases hcreate : (if !r.pathExists c.path then c.createDb r else .ok (c, r) :
        Outcome (Config × Rocks)) with
    | error e => exact ⟨iff_of_false (not_returns_error _) (not_returns_error _), nofun⟩
    | ok p =>
      obtain ⟨c₁, r₁⟩ := p
      obtain ⟨hanswers, hcalls₁⟩ := hend c₁ r₁ hcreate
      obtain ⟨status, handles, db, r₂, ho, -⟩ :=
        dbOpen_cases r₁.api.defaults c₁.path c₁.columnFamilies r₁
      obtain ⟨hcalls, hstatus⟩ := dbOpen_calls ho
      simp only [ok_bind, ho, pure_eq_ok]
      refine ⟨iff_of_true (returns_ok _) (returns_ok _), fun status' c' r' h => ?_⟩
      cases h
      rw [← hcalls₁, ← hanswers, ← Nat.add_assoc, ← hcalls₁]
      exact ⟨hstatus, hcalls⟩

theorem openBranch_isOpen {c c₁ : Config} {r r₁ : Rocks} {status : Status}
    (h : (if !c.isCf then c.openPlain r else c.openFamilies r) = .ok ((status, c₁), r₁)) :
    c₁.isOpen = c.isOpen := by
  split at h
  · rw [(openPlain_effect h).1]
  · rw [(openFamilies_effect h).1]

theorem open_answers (c : Config) (r : Rocks) :
    (Returns (c.open r) ↔ c.OpenReturns r) ∧
      ∀ reply c' r', c.open r = .ok ((reply, c'), r') →
        (c'.isOpen = true ↔ c.Opens r) ∧ r'.calls = r.calls + c.openCalls r := by
  cases hopen : c.isOpen with
  | true =>
    have hstep : c.open r = .ok ((errorReply 0, c), r) := by simp [Config.open, hopen]
    rw [hstep]
    refine ⟨iff_of_true (returns_ok _) (.inl hopen), fun reply c' r' h => ?_⟩
    cases h
    exact ⟨iff_of_true hopen (.inl hopen), by simp [openCalls, hopen]⟩
  | false =>
    obtain ⟨hret, hend⟩ := openBranch_answers c r
    simp only [OpenReturns, Opens, openCalls, hopen, Bool.false_eq_true, false_or, if_false]
    rw [← hret]
    unfold Config.open
    rw [if_neg (by simp [hopen])]
    cases h : (if !c.isCf then c.openPlain r else c.openFamilies r) with
    | error e => exact ⟨iff_of_false (not_returns_error _) (not_returns_error _), nofun⟩
    | ok p =>
      obtain ⟨⟨status, c₁⟩, r₁⟩ := p
      obtain ⟨hstatus, hcalls⟩ := hend status c₁ r₁ h
      have hc₁ := (openBranch_isOpen h).trans hopen
      rw [← hstatus]
      cases hs : status.isOk with
      | true =>
        simp only [ok_bind, hs, Bool.not_true, Bool.false_eq_true, if_false, pure_eq_ok]
        refine ⟨iff_of_true (returns_ok _) (returns_ok _), fun reply c' r' h => ?_⟩
        cases h
        exact ⟨by simp, hcalls⟩
      | false =>
        simp only [ok_bind, hs, Bool.not_false, if_true, pure_eq_ok]
        refine ⟨iff_of_true (returns_ok _) (returns_ok _), fun reply c' r' h => ?_⟩
        cases h
        exact ⟨by simp [hc₁], hcalls⟩

end Config

end RocksdbService
