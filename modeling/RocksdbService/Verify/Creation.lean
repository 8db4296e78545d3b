import RocksdbService.Verify.Answers
import RocksdbService.Verify.Handles

/-! # First-time creation in steps

A database with column families comes into being in separate persistent steps (`OpenStep`), after any of
which the process may stop; the next process finds what they have left on disk. `Config.open` is the
run of these steps (`open_eq_steps`). It succeeds on a RocksDB that refuses exactly the invalid
requests if and only if it finds either nothing or all families (`reopens_iff`). -/

namespace RocksdbService

open Outcome
open Json (Value)

/-- A step of `open` on a configuration with families. -/
inductive OpenStep
  | createDb
  | createFamily (name : Bytes)
  | deleteDb
  | openDb
  deriving DecidableEq

/-- Where `open` is: the configuration with the pointer and the handles it has set, the status of its last
call, and RocksDB. -/
structure Opening where
  config : Config
  status : Status := .ok
  rocks : Rocks

/-- The options that a step passes to `DB::Open`, if it calls it: fresh ones, and the first step may create
the database. -/
def OpenStep.options (api : OptionsApi) : OpenStep → Options
  | .createDb => api.defaults.set .createIfMissing true
  | _ => api.defaults

/-- What a step does. -/
def OpenStep.run : OpenStep → Opening → Outcome Opening
  | .createDb, s => do
    let ((status, _, db), rocks) ← Rocks.dbOpen (OpenStep.createDb.options s.rocks.api)
      s.config.path [kDefaultColumnFamilyName] s.rocks
    assertTrue status.isOk
    return { config := { s.config with db }, status, rocks }
  | .createFamily name, s => do
    let (status, rocks) ← Rocks.createColumnFamily s.config.db name s.rocks
    assertTrue status.isOk
    return { s with status, rocks }
  | .deleteDb, s => do
    let ((), rocks) ← Rocks.deleteDb s.config.db s.rocks
    return { s with rocks }
  | .openDb, s => do
    let ((status, handles, db), rocks) ← Rocks.dbOpen (OpenStep.openDb.options s.rocks.api)
      s.config.path s.config.columnFamilies s.rocks
    return { config := { s.config with handles, db }, status, rocks }

/-- Steps one after another. -/
def runSteps (steps : List OpenStep) (s : Opening) : Outcome Opening :=
  steps.foldlM (fun s step => step.run s) s

theorem runSteps_append (steps steps' : List OpenStep) (s : Opening) :
    runSteps (steps ++ steps') s = runSteps steps s >>= runSteps steps' := List.foldlM_append

namespace Config

/-- The families that a first-time creation creates one by one. -/
def newFamilies (c : Config) : List Bytes := c.cfNames.filter (· ≠ kDefaultColumnFamilyName)

/-- The steps up to the end of the creation loop. -/
def creationSteps (c : Config) : List OpenStep :=
  .createDb :: c.newFamilies.map OpenStep.createFamily

/-- The steps of `open`. -/
def openSteps (c : Config) (r : Rocks) : List OpenStep :=
  if r.pathExists c.path then [.openDb] else c.creationSteps ++ [.deleteDb, .openDb]

theorem createFamilies_eq_steps (names : List Bytes) (s : Opening) {status : Status}
    (hs : status.isOk = true) :
    (do let ((), rocks) ← createFamilies s.config.db status names s.rocks
        return (s.config, rocks)) =
      (do let s ← runSteps ((names.filter (· ≠ kDefaultColumnFamilyName)).map .createFamily) s
          return (s.config, s.rocks) : Outcome (Config × Rocks)) := by
  induction names generalizing s status with
  | nil => rfl
  | cons name names ih =>
    by_cases hname : name = kDefaultColumnFamilyName
    · simp only [createFamilies, hname, ne_eq, not_true_eq_false, if_false, ok_bind, assertTrue, hs,
        if_true, decide_false, Bool.false_eq_true, not_false_eq_true, List.filter_cons_of_neg]
      exact ih s hs
    · simp only [createFamilies, hname, ne_eq, not_false_eq_true, if_true, decide_true,
        List.filter_cons_of_pos, List.map_cons, runSteps, List.foldlM_cons, OpenStep.run, bind_assoc]
      apply bind_congr_ok
      rintro ⟨status', rocks⟩ -
      dsimp only
      cases hok : status'.isOk with
      | false => rfl
      | true => exact ih { s with status := status', rocks } hok

theorem openFamilies_eq_steps (c : Config) (r : Rocks) :
    c.openFamilies r = (do
      let s ← runSteps (c.openSteps r) { config := c, rocks := r }
      return ((s.status, s.config), s.rocks)) := by
  unfold openFamilies openSteps
  cases hpath : r.pathExists c.path with
  | true => simp [runSteps, OpenStep.run, OpenStep.options]
  | false =>
    simp only [Bool.not_false, if_true, Bool.false_eq_true, if_false, creationSteps, List.cons_append,
      createDb, runSteps, List.foldlM_cons, OpenStep.run, bind_assoc]
    apply bind_congr_ok
    rintro ⟨⟨status, handles, db⟩, r₁⟩ -
    dsimp only
    cases hok : status.isOk with
    | false => rfl
    | true =>
      have h := createFamilies_eq_steps c.cfNames
        { config := { c with db }, status := status, rocks := r₁ } hok
      have h' := congrArg (· >>= fun p => Rocks.deleteDb p.1.db p.2 >>= fun q =>
        Rocks.dbOpen q.2.api.defaults p.1.path p.1.columnFamilies q.2 >>= fun o =>
        (pure ((o.1.1, { p.1 with handles := o.1.2.1, db := o.1.2.2 }), o.2) :
          Outcome ((Status × Config) × Rocks))) h
      simp only [bind_assoc, pure_eq_ok, ok_bind] at h'
      simp only [assertTrue, if_true, ok_bind, bind_assoc, pure_eq_ok, List.foldlM_append,
        List.foldlM_cons, List.foldlM_nil]
      exact h'

theorem open_eq_steps {c : Config} (hcf : c.isCf = true) (hclosed : c.isOpen = false) (r : Rocks) :
    c.open r = (do
      let s ← runSteps (c.openSteps r) { config := c, rocks := r }
      if !s.status.isOk then return ((errorReply 4, s.config), s.rocks)
      else return ((errorReply 0, { s.config with isOpen := true }), s.rocks)) := by
  unfold Config.open
  rw [if_neg (by simp [hclosed]), if_neg (by simp [hcf]), openFamilies_eq_steps, bind_assoc]
  rfl

end Config

/-! ## What is on disk -/

/-- The families of the database at a path; none where the path does not exist. -/
abbrev Disk := Bytes → Option (List Bytes)

/-- There is a database at the path: it has the default family. -/
def Rocks.hasDatabase (r : Rocks) (path : Bytes) : Bool :=
  kDefaultColumnFamilyName ∈ (r.disk path).getD []

/-- A `DB::Open` that is a valid request: it names the families of the database, or has the options to create
what is missing. -/
def Rocks.CanOpen (r : Rocks) (options : Options) (path : Bytes) (families : List Bytes) : Prop :=
  if r.hasDatabase path then
    (∀ f ∈ (r.disk path).getD [], f ∈ families) ∧
      (options .createMissingColumnFamilies = true ∨ ∀ f ∈ families, f ∈ (r.disk path).getD [])
  else
    options .createIfMissing = true ∧
      (options .createMissingColumnFamilies = true ∨ ∀ f ∈ families, f = kDefaultColumnFamilyName)

/-- What RocksDB documents of its defaults: nothing is created. -/
structure OptionsApi.CreatesNothing (api : OptionsApi) : Prop where
  createIfMissing : api.defaults .createIfMissing = false
  createMissingColumnFamilies : api.defaults .createMissingColumnFamilies = false

/-- With the default options a valid request names exactly the families of the database. -/
theorem Rocks.canOpen_defaults_iff {r : Rocks} (h : r.api.CreatesNothing) {path : Bytes}
    {families : List Bytes} (hdefault : kDefaultColumnFamilyName ∈ families) :
    r.CanOpen r.api.defaults path families ↔ ∀ f, f ∈ (r.disk path).getD [] ↔ f ∈ families := by
  unfold CanOpen
  rw [h.createIfMissing, h.createMissingColumnFamilies]
  simp only [Bool.false_eq_true, false_and, false_or]
  split
  · exact ⟨fun ⟨h, h'⟩ f => ⟨h f, h' f⟩, fun h => ⟨fun f => (h f).mp, fun f => (h f).mpr⟩⟩
  · next hnone => exact iff_of_false id fun h => hnone (decide_eq_true ((h _).mpr hdefault))

/-- The step makes a valid request. -/
def OpenStep.Valid (s : Opening) : OpenStep → Prop
  | .createDb => s.rocks.CanOpen (OpenStep.createDb.options s.rocks.api) s.config.path
      [kDefaultColumnFamilyName]
  | .createFamily name => name ∉ (s.rocks.disk s.config.path).getD []
  | .deleteDb => True
  | .openDb => s.rocks.CanOpen (OpenStep.openDb.options s.rocks.api) s.config.path
      s.config.columnFamilies

theorem OpenStep.valid_openDb_iff {s : Opening} (h : s.rocks.api.CreatesNothing) :
    OpenStep.openDb.Valid s ↔
      ∀ f, f ∈ (s.rocks.disk s.config.path).getD [] ↔ f ∈ s.config.columnFamilies :=
  Rocks.canOpen_defaults_iff h List.mem_cons_self

/-- What earlier processes may have left: each ran `open` up to some step and was stopped there, or had
the next call refused, which may have left the directory. -/
inductive Config.Interrupted (c : Config) : Disk → Prop
  | absent {disk : Disk} (h : disk c.path = none) : Interrupted c disk
  | stopped {r : Rocks} {before after : List OpenStep} {s : Opening} (h : Interrupted c r.disk)
    (hsteps : c.openSteps r = before ++ after)
    (hrun : runSteps before { config := c, rocks := r } = .ok s) : Interrupted c s.rocks.disk
  | refused {r : Rocks} {before after : List OpenStep} {s : Opening} (h : Interrupted c r.disk)
    (hsteps : c.openSteps r = before ++ after)
    (hrun : runSteps before { config := c, rocks := r } = .ok s) :
    Interrupted c (s.rocks.addFamilies c.path []).disk

/-- RocksDB, with its documented defaults, refuses exactly the invalid requests that `open` makes. -/
structure Config.Honest (c : Config) (r : Rocks) : Prop where
  defaults : r.api.CreatesNothing
  answers : ∀ before step after s, c.openSteps r = before ++ step :: after → step ≠ .deleteDb →
    runSteps before { config := c, rocks := r } = .ok s →
    (s.rocks.answers s.rocks.calls = .serve ↔ step.Valid s)

/-- The configuration is open, and each of its families has a handle of a live object. -/
def Config.Usable (c : Config) (r : Rocks) : Prop :=
  c.isOpen = true ∧ ∃ id, c.db = .object id ∧ (r.live id).isSome ∧
    ∀ name ∈ c.cfNames, c.getHandle name = .ok (some ⟨id, name⟩)

namespace Rocks

theorem addFamilies_disk (r : Rocks) (path : Bytes) (fs : List Bytes) :
    ∃ fs', (r.addFamilies path fs).disk path = some fs' ∧
      ∀ f, f ∈ fs' ↔ f ∈ (r.disk path).getD [] ∨ f ∈ fs := by
  refine ⟨_, if_pos rfl, fun f => ?_⟩
  simp only [List.mem_append, List.mem_filter, decide_eq_true_eq]
  tauto

/-- Only families of the configuration are on disk. -/
def Within (r : Rocks) (path : Bytes) (fs : List Bytes) : Prop :=
  ∀ f ∈ (r.disk path).getD [], f ∈ fs

theorem Within.addFamilies {r : Rocks} {path : Bytes} {fs : List Bytes} (h : r.Within path fs)
    (path' : Bytes) {new : List Bytes} (hnew : ∀ f ∈ new, f ∈ fs) :
    (r.addFamilies path' new).Within path fs := by
  intro f hf
  by_cases hpath : path = path'
  · subst hpath
    obtain ⟨fs', hfs', hmem⟩ := r.addFamilies_disk path new
    rw [hfs', Option.getD_some, hmem] at hf
    exact hf.elim (h f) (hnew f)
  · have : (r.addFamilies path' new).disk path = r.disk path := if_neg hpath
    rw [this] at hf
    exact h f hf

theorem Within.dbOpen {r r' : Rocks} {path path' : Bytes} {fs families : List Bytes}
    {options : Options} {result : Status × List Handle × DbPtr} (h : r.Within path fs)
    (hfamilies : ∀ f ∈ families, f ∈ fs)
    (ho : Rocks.dbOpen options path' families r = .ok (result, r')) : r'.Within path fs := by
  unfold Rocks.dbOpen at ho
  cases ha : r.answers r.calls with
  | serve =>
    simp only [answer, ha] at ho
    cases ho
    exact Within.addFamilies (r := { r with calls := r.calls + 1 }) h path' hfamilies
  | refuse leavesPath =>
    simp only [answer, ha] at ho
    cases ho
    cases leavesPath with
    | false => exact h
    | true =>
      exact Within.addFamilies (r := { r with calls := r.calls + 1 }) h path' (List.forall_mem_nil _)

end Rocks

namespace Config

variable {c : Config} {r : Rocks}

theorem mem_columnFamilies {f : Bytes} :
    f ∈ c.columnFamilies ↔ f = kDefaultColumnFamilyName ∨ f ∈ c.newFamilies := List.mem_cons

/-- The steps that `open` of a configuration consists of add only its families. -/
theorem within_of_step {step : OpenStep} {s s' : Opening}
    (hstep : ∀ name, step = .createFamily name → name ∈ c.columnFamilies)
    (hs : s.config.columnFamilies = c.columnFamilies ∧ s.rocks.Within c.path c.columnFamilies)
    (h : step.run s = .ok s') :
    s'.config.columnFamilies = c.columnFamilies ∧ s'.rocks.Within c.path c.columnFamilies := by
  obtain ⟨hfamilies, hwithin⟩ := hs
  cases step with
  | createDb =>
    obtain ⟨⟨⟨status, handles, db⟩, r₁⟩, ho, h⟩ := bind_eq_ok.mp h
    obtain ⟨⟨⟩, -, h⟩ := bind_eq_ok.mp h
    cases h
    refine ⟨hfamilies, hwithin.dbOpen (fun f hf => ?_) ho⟩
    rw [List.mem_singleton.mp hf]
    exact List.mem_cons_self
  | createFamily name =>
    obtain ⟨⟨status, r₁⟩, ho, h⟩ := bind_eq_ok.mp h
    obtain ⟨⟨⟩, -, h⟩ := bind_eq_ok.mp h
    cases h
    refine ⟨hfamilies, ?_⟩
    obtain ⟨⟨id, obj⟩, -, ho⟩ := bind_eq_ok.mp ho
    cases ha : s.rocks.answers s.rocks.calls with
    | serve =>
      simp only [Rocks.answer, ha] at ho
      cases ho
      refine Rocks.Within.addFamilies (r := { s.rocks with calls := s.rocks.calls + 1 }) hwithin _
        fun f hf => ?_
      rw [List.mem_singleton.mp hf]
      exact hstep name rfl
    | refuse leavesPath =>
      simp only [Rocks.answer, ha] at ho
      cases ho
      exact hwithin
  | deleteDb =>
    obtain ⟨⟨⟨⟩, r₁⟩, hd, h⟩ := bind_eq_ok.mp h
    cases h
    refine ⟨hfamilies, ?_⟩
    unfold Rocks.deleteDb at hd
    split at hd
    · cases hd; exact hwithin
    · obtain ⟨⟨id, obj⟩, -, hd⟩ := bind_eq_ok.mp hd
      cases hd
      exact hwithin
  | openDb =>
    obtain ⟨⟨⟨status, handles, db⟩, r₁⟩, ho, h⟩ := bind_eq_ok.mp h
    cases h
    exact ⟨hfamilies, hwithin.dbOpen (fun f hf => hfamilies ▸ hf) ho⟩

theorem within_of_steps {steps : List OpenStep} {s s' : Opening}
    (hsteps : ∀ name, .createFamily name ∈ steps → name ∈ c.columnFamilies)
    (hs : s.config.columnFamilies = c.columnFamilies ∧ s.rocks.Within c.path c.columnFamilies)
    (h : runSteps steps s = .ok s') :
    s'.config.columnFamilies = c.columnFamilies ∧ s'.rocks.Within c.path c.columnFamilies := by
  induction steps generalizing s with
  | nil => cases h; exact hs
  | cons step steps ih =>
    obtain ⟨s₁, h₁, h⟩ := bind_eq_ok.mp h
    refine ih (fun name hmem => hsteps name (List.mem_cons_of_mem _ hmem)) ?_ h
    exact within_of_step (fun name heq => hsteps name (heq ▸ List.mem_cons_self)) hs h₁

theorem createFamily_mem_openSteps {name : Bytes} (h : .createFamily name ∈ c.openSteps r) :
    name ∈ c.columnFamilies := by
  unfold openSteps creationSteps at h
  split at h
  · simp at h
  · simp at h
    exact mem_columnFamilies.mpr (.inr h)

theorem Interrupted.within {disk : Disk} (h : c.Interrupted disk) :
    ∀ f ∈ (disk c.path).getD [], f ∈ c.columnFamilies := by
  have hrun : ∀ {r : Rocks} {before after : List OpenStep} {s : Opening},
      r.Within c.path c.columnFamilies → c.openSteps r = before ++ after →
      runSteps before { config := c, rocks := r } = .ok s → s.rocks.Within c.path c.columnFamilies := by
    intro r before after s hr hsteps hrun
    refine (within_of_steps (fun name hmem => ?_) ⟨rfl, hr⟩ hrun).2
    refine createFamily_mem_openSteps (r := r) ?_
    rw [hsteps]
    exact List.mem_append_left _ hmem
  induction h with
  | absent h => rw [h]; exact nofun
  | stopped _ hsteps hr ih => exact hrun ih hsteps hr
  | refused _ hsteps hr ih => exact (hrun ih hsteps hr).addFamilies c.path nofun

/-! ## A creation on a RocksDB that refuses only invalid requests -/

/-- The database has been created with the first `j` of its new families. -/
structure CreatedUpTo (c : Config) (r : Rocks) (j : Nat) (s : Opening) : Prop where
  config : s.config = { c with db := .object r.next }
  api : s.rocks.api = r.api
  answers : s.rocks.answers = r.answers
  calls : s.rocks.calls = r.calls + (j + 1)
  live : ∃ o, s.rocks.live r.next = some o ∧ o.path = c.path
  disk : ∃ fs, s.rocks.disk c.path = some fs ∧
    ∀ f, f ∈ fs ↔ f = kDefaultColumnFamilyName ∨ f ∈ c.newFamilies.take j

theorem run_createDb (hpath : r.disk c.path = none) (hs : r.answers r.calls = .serve) :
    ∃ s, OpenStep.createDb.run { config := c, rocks := r } = .ok s ∧ c.CreatedUpTo r 0 s := by
  refine ⟨_, by simp only [OpenStep.run, Rocks.dbOpen, Rocks.answer, hs]; rfl, rfl, rfl, rfl, rfl,
    ⟨_, if_pos rfl, rfl⟩, ?_⟩
  obtain ⟨fs, hfs, hmem⟩ := Rocks.addFamilies_disk { r with calls := r.calls + 1 } c.path
    [kDefaultColumnFamilyName]
  refine ⟨fs, hfs, fun f => ?_⟩
  rw [hmem, hpath]
  simp

theorem CreatedUpTo.run_createFamily {j : Nat} {s : Opening} (h : c.CreatedUpTo r j s)
    (hj : j < c.newFamilies.length) (hs : r.answers (r.calls + (j + 1)) = .serve) :
    ∃ s', (OpenStep.createFamily (c.newFamilies[j])).run s = .ok s' ∧ c.CreatedUpTo r (j + 1) s' := by
  obtain ⟨o, hlive, hpath⟩ := h.live
  obtain ⟨fs, hfs, hmem⟩ := h.disk
  have hserve : s.rocks.answers s.rocks.calls = .serve := by rw [h.answers, h.calls, hs]
  have hdb : s.config.db = .object r.next := by rw [h.config]
  refine ⟨{ s with
    status := .ok
    rocks := Rocks.addFamilies { s.rocks with calls := s.rocks.calls + 1 } o.path
      [c.newFamilies[j]] }, ?_, h.config, h.api, h.answers, ?_, ⟨o, hlive, hpath⟩, ?_⟩
  · simp only [OpenStep.run, Rocks.createColumnFamily, hdb, Rocks.deref_object hlive, ok_bind,
      Rocks.answer, hserve]
    rfl
  · exact congrArg (· + 1) h.calls
  · obtain ⟨fs', hfs', hmem'⟩ := Rocks.addFamilies_disk { s.rocks with calls := s.rocks.calls + 1 }
      o.path [c.newFamilies[j]]
    refine ⟨fs', hpath ▸ hfs', fun f => ?_⟩
    have hold : ({ s.rocks with calls := s.rocks.calls + 1 } : Rocks).disk o.path = some fs :=
      hpath ▸ hfs
    rw [hmem', hold, Option.getD_some, hmem, List.take_succ_eq_append_getElem hj, List.mem_append]
    tauto

/-- The creation gets as far as its calls are served. -/
theorem runSteps_creation (hpath : r.disk c.path = none) {j : Nat} (hj : j ≤ c.newFamilies.length)
    (hs : r.ServesFor (j + 1)) :
    ∃ s, runSteps (.createDb :: (c.newFamilies.take j).map .createFamily)
      { config := c, rocks := r } = .ok s ∧ c.CreatedUpTo r j s := by
  induction j with
  | zero =>
    obtain ⟨s, hrun, hc⟩ := run_createDb hpath (hs 0 Nat.one_pos)
    exact ⟨s, by simp [runSteps, hrun], hc⟩
  | succ j ih =>
    obtain ⟨s, hrun, hc⟩ := ih (Nat.le_of_succ_le hj) fun k hk => hs k (Nat.lt_succ_of_lt hk)
    obtain ⟨s', hrun', hc'⟩ := hc.run_createFamily hj (hs (j + 1) (Nat.lt_succ_self _))
    refine ⟨s', ?_, hc'⟩
    rw [List.take_succ_eq_append_getElem hj, List.map_append, ← List.cons_append, runSteps_append, hrun,
      ok_bind]
    simp [runSteps, hrun']

theorem newFamilies_ne_default {f : Bytes} (h : f ∈ c.newFamilies) : f ≠ kDefaultColumnFamilyName :=
  of_decide_eq_true (List.mem_filter.mp h).2

theorem openSteps_of_absent (hpath : r.disk c.path = none) {j : Nat} (hj : j < c.newFamilies.length) :
    c.openSteps r = (.createDb :: (c.newFamilies.take j).map .createFamily) ++
      .createFamily c.newFamilies[j] ::
        ((c.newFamilies.drop (j + 1)).map .createFamily ++ [.deleteDb, .openDb]) := by
  have hsplit : c.newFamilies.map OpenStep.createFamily =
      (c.newFamilies.take j).map .createFamily ++
        .createFamily c.newFamilies[j] :: (c.newFamilies.drop (j + 1)).map .createFamily := by
    rw [← List.map_cons, List.getElem_cons_drop, ← List.map_append, List.take_append_drop]
  unfold openSteps creationSteps
  rw [if_neg (by simp [Rocks.pathExists, hpath]), hsplit]
  simp only [List.cons_append, List.append_assoc]

theorem openSteps_eq_createDb (hpath : r.disk c.path = none) :
    ∃ after, c.openSteps r = .createDb :: after := by
  unfold openSteps creationSteps
  rw [if_neg (by simp [Rocks.pathExists, hpath])]
  exact ⟨_, rfl⟩

/-- On a RocksDB that refuses exactly the invalid requests, as many families are created as there are names
before the first repetition. -/
theorem Honest.servesFor_iff (hh : c.Honest r) (hpath : r.disk c.path = none) {j : Nat}
    (hj : j ≤ c.newFamilies.length) : r.ServesFor (j + 1) ↔ (c.newFamilies.take j).Nodup := by
  induction j with
  | zero =>
    rw [List.take_zero]
    refine iff_of_true (fun k hk => ?_) List.nodup_nil
    obtain rfl := Nat.lt_one_iff.mp hk
    obtain ⟨after, hsteps⟩ := openSteps_eq_createDb hpath
    refine (hh.answers [] .createDb after _ hsteps nofun rfl).mpr ?_
    have hnone : r.hasDatabase c.path = false := by simp [Rocks.hasDatabase, hpath]
    rw [OpenStep.Valid, Rocks.CanOpen, hnone, if_neg Bool.false_ne_true]
    exact ⟨Options.set_self _ _ _, .inr fun f hf => List.mem_singleton.mp hf⟩
  | succ j ih =>
    have ih := ih (Nat.le_of_succ_le hj)
    have hstep : r.ServesFor (j + 2) ↔ r.ServesFor (j + 1) ∧
        r.answers (r.calls + (j + 1)) = .serve := by
      constructor
      · exact fun h => ⟨fun k hk => h k (Nat.lt_succ_of_lt hk), h (j + 1) (Nat.lt_succ_self _)⟩
      · rintro ⟨h, hlast⟩ k hk
        rcases Nat.lt_succ_iff_lt_or_eq.mp hk with hk | rfl
        · exact h k hk
        · exact hlast
    rw [hstep, ih, List.take_succ_eq_append_getElem hj, List.nodup_append]
    refine and_congr_right fun hnodup => ?_
    obtain ⟨s, hrun, hc⟩ := runSteps_creation hpath (Nat.le_of_succ_le hj) (ih.mpr hnodup)
    obtain ⟨fs, hfs, hmem⟩ := hc.disk
    have hanswer := hh.answers _ _ _ s (openSteps_of_absent hpath hj) nofun hrun
    rw [hc.answers, hc.calls] at hanswer
    rw [hanswer, OpenStep.Valid, hc.config, hfs, Option.getD_some, hmem, not_or]
    have hne := newFamilies_ne_default (List.getElem_mem hj)
    simp only [hne, not_false_eq_true, true_and, List.nodup_singleton, List.mem_singleton,
      forall_eq]
    exact ⟨fun h a ha heq => h (heq ▸ ha), fun h hmem => h _ hmem rfl⟩

/-- A creation that comes to its last step finds all its families on disk. -/
theorem Honest.answers_last (hh : c.Honest r) (hpath : r.disk c.path = none)
    (hs : r.ServesFor (c.newFamilies.length + 1)) :
    r.answers (r.calls + (c.newFamilies.length + 1)) = .serve := by
  obtain ⟨s, hrun, hc⟩ := runSteps_creation hpath (Nat.le_refl _) hs
  rw [List.take_length] at hrun
  obtain ⟨o, hlive, -⟩ := hc.live
  obtain ⟨fs, hfs, hmem⟩ := hc.disk
  have hdelete : runSteps (c.creationSteps ++ [.deleteDb]) { config := c, rocks := r } =
      .ok { s with rocks := { s.rocks with
        live := fun j => if j = r.next then none else s.rocks.live j } } := by
    have hdb : s.config.db = .object r.next := by rw [hc.config]
    rw [runSteps_append, creationSteps, hrun, ok_bind]
    simp [runSteps, OpenStep.run, hdb, Rocks.deleteDb_object hlive]
  have hsteps : c.openSteps r = (c.creationSteps ++ [.deleteDb]) ++ .openDb :: [] := by
    rw [openSteps, if_neg (by simp [Rocks.pathExists, hpath]), List.append_assoc]
    rfl
  have hanswer := hh.answers _ _ _ _ hsteps nofun hdelete
  dsimp only at hanswer
  rw [hc.answers, hc.calls] at hanswer
  refine hanswer.mpr ((OpenStep.valid_openDb_iff ?_).mpr fun f => ?_)
  · exact hc.api ▸ hh.defaults
  · dsimp only
    rw [hc.config]
    dsimp only
    rw [hfs, Option.getD_some, hmem, List.take_length]
    exact mem_columnFamilies.symm

theorem Honest.answers_existing (hh : c.Honest r) {fs : List Bytes} (hpath : r.disk c.path = some fs) :
    r.answers r.calls = .serve ↔ ∀ f, f ∈ fs ↔ f ∈ c.columnFamilies := by
  have hsteps : c.openSteps r = [] ++ .openDb :: [] := by
    rw [openSteps, if_pos (by simp [Rocks.pathExists, hpath])]
    rfl
  rw [hh.answers [] .openDb [] _ hsteps nofun rfl, OpenStep.valid_openDb_iff hh.defaults, hpath,
    Option.getD_some]

/-- What `open` comes to. -/
theorem usable_iff (ha : c.Aligned) (hclosed : c.isOpen = false) :
    (∃ reply c' r', c.open r = .ok ((reply, c'), r') ∧ c'.Usable r') ↔
      r.ServesFor (c.creationCalls r) ∧ r.answers (r.calls + c.creationCalls r) = .serve := by
  obtain ⟨hret, hend⟩ := open_answers c r
  simp only [OpenReturns, hclosed, Bool.false_eq_true, false_or] at hret
  have hopens : c.Opens r ↔ r.answers (r.calls + c.creationCalls r) = .serve := by
    simp [Opens, hclosed]
  constructor
  · rintro ⟨reply, c', r', h, hopen, -⟩
    exact ⟨hret.mp ⟨_, h⟩, hopens.mp ((hend reply c' r' h).1.mp hopen)⟩
  · rintro ⟨hs, hlast⟩
    obtain ⟨⟨⟨reply, c'⟩, r'⟩, h⟩ := hret.mpr hs
    have hopen := (hend reply c' r' h).1.mpr (hopens.mpr hlast)
    have H := open_effect h
    obtain ⟨id, ho⟩ := H.openOn hclosed hopen
    refine ⟨reply, c', r', h, hopen, id, ho.db, by rw [ho.live]; rfl, fun name hname => ?_⟩
    rw [ho.getHandle_eq (ha.of_settings H.settings), if_pos hname]

end Config

/-- After any interruptions, `open` on a RocksDB that refuses only invalid requests makes the database
usable if and only if nothing of it exists and no name is repeated, or all its families exist. -/
theorem reopens_iff {c : Config} (ha : c.Aligned) (hcf : c.isCf = true) (hclosed : c.isOpen = false)
    {r : Rocks} (hdisk : c.Interrupted r.disk) (hh : c.Honest r) :
    (∃ reply c' r', c.open r = .ok ((reply, c'), r') ∧ c'.Usable r') ↔
      r.disk c.path = none ∧ c.newFamilies.Nodup ∨
        ∃ fs, r.disk c.path = some fs ∧ ∀ f ∈ c.columnFamilies, f ∈ fs := by
  rw [Config.usable_iff ha hclosed]
  cases hpath : r.disk c.path with
  | none =>
    have hn : c.creationCalls r = c.newFamilies.length + 1 := by
      simp [Config.creationCalls, hcf, Rocks.pathExists, hpath, Config.extraFamilies,
        Config.newFamilies]
    rw [hn, hh.servesFor_iff hpath (Nat.le_refl _), List.take_length]
    constructor
    · exact fun h => .inl ⟨rfl, h.1⟩
    · rintro (⟨-, h⟩ | ⟨fs, h, -⟩)
      · refine ⟨h, hh.answers_last hpath ?_⟩
        rw [hh.servesFor_iff hpath (Nat.le_refl _), List.take_length]
        exact h
      · cases h
  | some fs =>
    have hn : c.creationCalls r = 0 := by simp [Config.creationCalls, Rocks.pathExists, hpath]
    rw [hn, Nat.add_zero, hh.answers_existing hpath]
    constructor
    · exact fun h => .inr ⟨fs, rfl, fun f hf => (h.2 f).mpr hf⟩
    · rintro (⟨h, -⟩ | ⟨_, h, hsub⟩)
      · cases h
      · cases h
        refine ⟨fun k hk => absurd hk (Nat.not_lt_zero k), fun f => ⟨fun hf => ?_, hsub f⟩⟩
        apply hdisk.within f
        rw [hpath]
        exact hf

/-- A configuration with one family. -/
def oneFamily : Config :=
  Config.create (ascii "a") (ascii "p") defaultOptions [ascii "default", ascii "x"]

theorem oneFamily_aligned : oneFamily.Aligned := ⟨nofun, fun _ => rfl⟩

/-- What a process has left that was stopped after the creation of these families. -/
def leftBehind (families : List Bytes) (answer : Answer) : Rocks :=
  { emptyRocks with
    answers := fun _ => answer
    disk := fun p => if p = ascii "p" then some families else none }

theorem oneFamily_honest {families : List Bytes} {answer : Answer}
    (h : answer = .serve ↔ ∀ f, f ∈ families ↔ f ∈ oneFamily.columnFamilies) :
    oneFamily.Honest (leftBehind families answer) := by
  refine ⟨⟨rfl, rfl⟩, fun before step after s hsteps _ hrun => ?_⟩
  have hopen : oneFamily.openSteps (leftBehind families answer) = [.openDb] := rfl
  rw [hopen] at hsteps
  obtain ⟨rfl, rfl⟩ : before = [] ∧ step = .openDb := by
    cases before with
    | nil => cases hsteps; exact ⟨rfl, rfl⟩
    | cons _ before => cases before <;> cases hsteps
  cases hrun
  have hvalid := OpenStep.valid_openDb_iff
    (s := { config := oneFamily, rocks := leftBehind families answer }) ⟨rfl, rfl⟩
  exact h.trans hvalid.symm

/-- A process that was stopped when it had created everything. -/
theorem reopens_complete : ∃ r, oneFamily.Interrupted r.disk ∧
    ∃ reply c' r', oneFamily.open r = .ok ((reply, c'), r') ∧ c'.Usable r' := by
  have hsteps : oneFamily.openSteps emptyRocks =
      [.createDb, .createFamily (ascii "x")] ++ [.deleteDb, .openDb] := rfl
  have hdisk : oneFamily.Interrupted
      (leftBehind [ascii "default", ascii "x"] .serve).disk := by
    have habsent : oneFamily.Interrupted emptyRocks.disk := .absent rfl
    refine cast (congrArg oneFamily.Interrupted (funext fun path => ?_)) (habsent.stopped hsteps rfl)
    by_cases h : path = ascii "p"
    · subst h; rfl
    · exact (if_neg h).trans ((if_neg h).trans (if_neg h).symm)
  refine ⟨_, hdisk, (reopens_iff oneFamily_aligned rfl rfl hdisk (oneFamily_honest ?_)).mpr ?_⟩
  · exact iff_of_true rfl fun f => Iff.rfl
  · exact .inr ⟨_, rfl, fun f hf => hf⟩

/-- A process that was stopped between the creation of the database and that of its family: the database
cannot be opened any more. -/
theorem not_usable_after_createDb : ∃ r, oneFamily.Interrupted r.disk ∧ oneFamily.Honest r ∧
    ¬ ∃ reply c' r', oneFamily.open r = .ok ((reply, c'), r') ∧ c'.Usable r' := by
  have hsteps : oneFamily.openSteps emptyRocks =
      [.createDb] ++ [.createFamily (ascii "x"), .deleteDb, .openDb] := rfl
  have hdisk : oneFamily.Interrupted (leftBehind [ascii "default"] (.refuse false)).disk := by
    have habsent : oneFamily.Interrupted emptyRocks.disk := .absent rfl
    exact habsent.stopped hsteps rfl
  refine ⟨_, hdisk, oneFamily_honest (iff_of_false nofun fun h => ?_), ?_⟩
  · have := (h (ascii "x")).mpr (by decide)
    revert this
    decide
  · rintro ⟨reply, c', r', h, hopen, -⟩
    cases h
    cases hopen

end RocksdbService
