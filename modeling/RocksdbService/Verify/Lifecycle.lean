import RocksdbService.Theory.Run
import RocksdbService.Verify.ConfigFile
import RocksdbService.Verify.Instance

/-! # The life of the database pointers

The pointer of a configuration is indeterminate until a request for the database comes to `open`
(`execReply_indeterminate`), and the signal handler deletes the pointers of all configurations. So
the process is safe up to the signal, and survives the signal exactly if every configured database
has been asked for before (`lawful_iff_named`). -/

namespace RocksdbService

open Outcome
open Json (Value)

/-- The payload is a request for the `i`-th configuration. -/
def Names (configs : List Config) (inp : Bytes) (i : Nat) : Prop :=
  ∃ name command, requestOf inp = .ok (.named name command) ∧ name ≠ [] ∧
    configs.findIdx? (·.name = name) = some i

theorem Names.congr {configs configs' : List Config}
    (h : configs'.map Config.settings = configs.map Config.settings) {inp : Bytes} {i : Nat} :
    Names configs' inp i ↔ Names configs inp i := by
  simp only [Names, ← World.findIdx?_settings configs', ← World.findIdx?_settings configs, h]

/-! ## Requests -/

/-- A request that finds its database calls `open` of it and leaves the other configurations. -/
theorem request_configs {w w' : World} {name : Bytes} {command : Outcome Command} {reply : Value}
    (hname : name ≠ []) {i : Nat} {item : Config} (hfind : w.find? name = some (i, item))
    (h : w.request name command = .ok (reply, w')) :
    ∃ reply₁ item' rocks, item.open w.rocks = .ok ((reply₁, item'), rocks) ∧
      w'.configs = w.configs.set i item' := by
  rw [World.request, if_neg hname, hfind] at h
  obtain ⟨⟨⟨reply₁, item'⟩, rocks⟩, ho, h⟩ := bind_eq_ok.mp h
  refine ⟨reply₁, item', rocks, ho, ?_⟩
  dsimp only at h
  split at h
  · obtain ⟨_, -, h⟩ := bind_eq_ok.mp h
    obtain ⟨_, -, h⟩ := bind_eq_ok.mp h
    cases h
    rfl
  · cases h
    rfl

/-- After `open` the pointer is null or stands on an object. -/
theorem open_determinate {w : World} (hw : w.Inv) {i : Nat} {c c' : Config} {r' : Rocks}
    {reply : Value} (hc : w.configs[i]? = some c) (h : c.open w.rocks = .ok ((reply, c'), r')) :
    c'.db ≠ .indeterminate := by
  intro hd
  rcases (Config.open_effect h).outcome with ⟨ho, -, rfl, -⟩ | ⟨-, -, -, id, -, -, hdb, -⟩ |
    ⟨-, -, -, hdb, -⟩
  · obtain ⟨id, hid⟩ := hw.opened hc ho
    cases hid.db.symm.trans hd
  · cases hdb.symm.trans hd
  · cases hdb.symm.trans hd

/-- A request makes the pointer of the configuration it names determinate and no other. -/
theorem execReply_indeterminate {w w' : World} (hw : w.Inv) {inp : Bytes} {reply : Value}
    (h : execReply inp w = .ok (reply, w')) {i : Nat} {c c' : Config}
    (hc : w.configs[i]? = some c) (hc' : w'.configs[i]? = some c') :
    c'.db = .indeterminate ↔ c.db = .indeterminate ∧ ¬ Names w.configs inp i := by
  rw [execReply_eq inp hw] at h
  obtain ⟨q, hq, h⟩ := bind_eq_ok.mp h
  have hunnamed : w' = w → ¬ Names w.configs inp i →
      (c'.db = .indeterminate ↔ c.db = .indeterminate ∧ ¬ Names w.configs inp i) := by
    intro heq hn
    cases heq
    cases hc.symm.trans hc'
    exact ⟨fun hd => ⟨hd, hn⟩, And.left⟩
  cases q with
  | rejected =>
    cases h
    apply hunnamed rfl
    rintro ⟨_, _, hn, -⟩
    cases hq.symm.trans hn
  | named name command =>
    have hnames : Names w.configs inp i ↔
        name ≠ [] ∧ w.configs.findIdx? (·.name = name) = some i := by
      constructor
      · rintro ⟨_, _, hn, hne, hi⟩
        cases hq.symm.trans hn
        exact ⟨hne, hi⟩
      · rintro ⟨hne, hi⟩
        exact ⟨name, command, hq, hne, hi⟩
    change w.request name command = _ at h
    by_cases hne : name = []
    · rw [World.request, if_pos hne] at h
      cases h
      exact hunnamed rfl fun hn => (hnames.mp hn).1 hne
    cases hfind : w.find? name with
    | none =>
      rw [World.request, if_neg hne, hfind] at h
      cases h
      refine hunnamed rfl fun hn => ?_
      rw [World.find?, (hnames.mp hn).2, Option.bind_eq_bind, Option.bind_some, hc] at hfind
      cases hfind
    | some p =>
      obtain ⟨j, item⟩ := p
      obtain ⟨hj, -, -⟩ := World.find?_eq_some hfind
      have hidx : w.configs.findIdx? (·.name = name) = some j := by
        rw [World.find?, Option.bind_eq_bind, Option.bind_eq_some_iff] at hfind
        obtain ⟨k, hk, hfind⟩ := hfind
        obtain ⟨_, -, hfind⟩ := Option.bind_eq_some_iff.mp hfind
        cases hfind
        exact hk
      obtain ⟨reply₁, item', rocks, ho, hset⟩ := request_configs hne hfind h
      rw [hset] at hc'
      rcases World.Inv.getElem?_set_cases hc' with ⟨rfl, rfl⟩ | ⟨hne', hc'⟩
      · have hdb := open_determinate hw hj ho
        exact ⟨fun hd => absurd hd hdb, fun hd => absurd (hnames.mpr ⟨hne, hidx⟩) hd.2⟩
      · cases hc.symm.trans hc'
        refine ⟨fun hd => ⟨hd, fun hn => hne' ?_⟩, And.left⟩
        exact (Option.some.inj (hidx.symm.trans (hnames.mp hn).2)).symm

/-- After some requests the indeterminate pointers are those that were indeterminate before and that
none of them names. -/
theorem run_indeterminate {w w' : World} (hw : w.Inv) {inps : List Bytes} {replies : List Value}
    (h : run execReply inps w = .ok (replies, w')) :
    w'.Inv ∧ w.SameSettings w' ∧ ∀ {i : Nat} {c c' : Config}, w.configs[i]? = some c →
      w'.configs[i]? = some c' →
      (c'.db = .indeterminate ↔ c.db = .indeterminate ∧ ∀ inp ∈ inps, ¬ Names w.configs inp i) := by
  induction inps generalizing w replies with
  | nil =>
    cases h
    refine ⟨hw, .rfl, fun hc hc' => ?_⟩
    cases hc.symm.trans hc'
    simp
  | cons inp inps ih =>
    obtain ⟨reply, w₁, replies', h₁, h₂, rfl⟩ := run_cons_eq_ok.mp h
    obtain ⟨hw₁, hs₁⟩ := hw.execReply h₁
    obtain ⟨hw', hs', hdb⟩ := ih hw₁ h₂
    refine ⟨hw', hs₁.trans hs', fun {i c c'} hc hc' => ?_⟩
    have hlen : w₁.configs.length = w.configs.length := by
      simpa using congrArg List.length hs₁.settings
    have hi : i < w₁.configs.length := hlen ▸ (List.getElem?_eq_some_iff.mp hc).1
    have hc₁ : w₁.configs[i]? = some w₁.configs[i] := List.getElem?_eq_getElem hi
    rw [hdb hc₁ hc', execReply_indeterminate hw h₁ hc hc₁, and_assoc, List.forall_mem_cons]
    simp only [Names.congr hs₁.settings]

/-! ## How a request ends when it does not return -/

section
open Json.Value

theorem asString_fault {v : Value} {f : Fault} (h : v.asString = .error f) :
    ∃ what, f = .exception what := by
  cases v <;> cases h <;> exact ⟨_, rfl⟩

theorem textOf_fault {v : Value} (hv : v.WellFormed) {f : Fault} (h : textOf v = .error f) :
    ∃ what, f = .exception what := by
  refine asString_fault (v := v) ?_
  rw [asString_eq_textOf hv, h]
  rfl

theorem mapM_fault {α β : Type} {g : α → Outcome β} {Q : Fault → Prop} {xs : List α} {f : Fault}
    (hg : ∀ x ∈ xs, ∀ {f}, g x = .error f → Q f) (h : xs.mapM g = .error f) : Q f := by
  induction xs with
  | nil => cases h
  | cons x xs ih =>
    obtain ⟨hx, hxs⟩ := List.forall_mem_cons.mp hg
    rw [List.mapM_cons] at h
    rcases bind_eq_error.mp h with h | ⟨_, -, h⟩
    · exact hx h
    rcases bind_eq_error.mp h with h | ⟨_, -, h⟩
    · exact ih hxs h
    · cases h

theorem batchOf_fault {items : Value} (hv : items.WellFormed) {f : Fault}
    (h : batchOf items = .error f) : ∃ what, f = .exception what := by
  unfold batchOf at h
  split at h
  · cases h
  · refine mapM_fault (Q := fun f => ∃ what, f = .exception what) (fun p hp f h => ?_) h
    rcases bind_eq_error.mp h with h | ⟨_, -, h⟩
    · exact textOf_fault (hv.of_mem hp) h
    · cases h
  · cases h; exact ⟨_, rfl⟩

theorem commandOf_fault {root : Value} (hv : root.WellFormed) {f : Fault}
    (h : commandOf root = .error f) : ∃ what, f = .exception what := by
  have field : ∀ {key : Bytes} {g : Bytes → Outcome Command},
      ((root.member key).asString >>= g) = .error f →
        (∀ s, g s = .error f → ∃ what, f = .exception what) → ∃ what, f = .exception what := by
    intro key g h hg
    rcases bind_eq_error.mp h with h | ⟨s, -, h⟩
    · exact asString_fault h
    · exact hg s h
  have text : ∀ {key : Bytes} {g : Json.JString → Command},
      (do return g (← textOf (root.member key)) : Outcome Command) = .error f →
        ∃ what, f = .exception what := by
    intro key g h
    rcases bind_eq_error.mp h with h | ⟨_, -, h⟩
    · exact textOf_fault (hv.member key) h
    · cases h
  refine field h fun op h => ?_
  split at h
  · exact field h fun _ h => field h fun _ h => text h
  split at h
  · exact field h fun _ h => text h
  split at h
  · rcases bind_eq_error.mp h with h | ⟨_, -, h⟩
    · exact batchOf_fault (hv.member _) h
    · cases h
  split at h
  · exact field h nofun
  split at h
  · exact field h fun _ h => field h nofun
  · cases h

end

theorem valueReply_fault {value : Bytes} {f : Fault} (h : valueReply value = .error f) :
    ∃ what, f = .exception what := by
  rcases bind_eq_error.mp h with h | ⟨_, -, h⟩
  · unfold Value.ofString at h
    split at h <;> cases h
    exact ⟨_, rfl⟩
  · cases h

theorem runCommand_fault {c : Config} {r : Rocks} {id : Nat} (hc : c.OpenOn r id) (ha : c.Aligned)
    {command : Command} {f : Fault} (h : runCommand c command r = .error f) :
    ∃ what, f = .exception what := by
  have hread : ∀ {path family key : Bytes},
      (do return (← r.readAt path family key, r.tick) : Outcome (Value × Rocks)) = .error f →
        ∃ what, f = .exception what := by
    intro path family key h
    rcases bind_eq_error.mp h with h | ⟨_, -, h⟩
    · unfold Rocks.readAt at h
      split at h
      · exact valueReply_fault h
      · cases h
    · cases h
  rw [runCommand_eq hc ha] at h
  cases command with
  | get key => exact hread h
  | getCf column key =>
    dsimp only at h
    split at h
    · exact hread h
    · cases h
  | _ => cases h

/-- A request ends in an exception or a failed assertion if it does not return. -/
theorem execReply_fault {w : World} (hw : w.Inv) {inp : Bytes} {f : Fault}
    (h : execReply inp w = .error f) : f ≠ .undefined := by
  have thrown : (∃ what, f = .exception what) → f ≠ .undefined := by
    rintro ⟨what, rfl⟩; exact nofun
  rw [execReply_eq inp hw] at h
  rcases bind_eq_error.mp h with h | ⟨q, hq, h⟩
  · rcases bind_eq_error.mp h with h | ⟨parsed, -, h⟩
    · exact thrown (Json.parseFromStream_fault h)
    · split at h
      · cases h
      · split at h
        · rcases bind_eq_error.mp h with h | ⟨_, -, h⟩
          · exact thrown (asString_fault h)
          · cases h
        · cases h; exact nofun
  cases q with
  | rejected => cases h
  | named name command =>
    change w.request name command = _ at h
    unfold World.request at h
    split at h
    · cases h
    split at h
    · cases h
    next i item hfind =>
    obtain ⟨hi, -, -⟩ := World.find?_eq_some hfind
    rcases bind_eq_error.mp h with h | ⟨⟨⟨reply₁, item'⟩, rocks⟩, ho, h⟩
    · rw [Config.open_fault h]; exact nofun
    dsimp only at h
    split at h
    · next hopen =>
      have hw₁ := hw.open hi ho
      have hset : (w.configs.set i item')[i]? = some item' :=
        List.getElem?_set_self (List.getElem?_eq_some_iff.mp hi).1
      obtain ⟨id, hid⟩ := hw₁.opened hset hopen
      rcases bind_eq_error.mp h with h | ⟨command', -, h⟩
      · obtain ⟨root, hp, -, -, rfl⟩ := requestOf_named hq
        exact thrown (commandOf_fault (Json.parseFromStream_wellFormed hp) h)
      · rcases bind_eq_error.mp h with h | ⟨_, -, h⟩
        · exact thrown (runCommand_fault hid (hw₁.aligned hset) h)
        · cases h
    · cases h

/-! ## The signal handler -/

theorem deleteDb_fault {db : DbPtr} {r : Rocks} {f : Fault} (h : Rocks.deleteDb db r = .error f) :
    f = .undefined := by
  unfold Rocks.deleteDb at h
  split at h
  · cases h
  · rcases bind_eq_error.mp h with h | ⟨_, -, h⟩
    · unfold Rocks.deref at h
      split at h
      · split at h <;> cases h
        rfl
      all_goals cases h; rfl
    · cases h

theorem shutdownConfigs_fault {configs : List Config} {r : Rocks} {f : Fault}
    (h : shutdownConfigs configs r = .error f) : f = .undefined := by
  induction configs generalizing r with
  | nil => cases h
  | cons c configs ih =>
    rw [shutdownConfigs] at h
    rcases bind_eq_error.mp h with h | ⟨⟨⟨⟩, r₁⟩, -, h⟩
    · exact deleteDb_fault h
    rcases bind_eq_error.mp h with h | ⟨_, -, h⟩
    · exact ih h
    · cases h

/-- The handler comes through only if it meets no indeterminate pointer. -/
theorem shutdownConfigs_determinate {configs configs' : List Config} {r r' : Rocks}
    (h : shutdownConfigs configs r = .ok (configs', r')) : ∀ c ∈ configs, c.db ≠ .indeterminate := by
  induction configs generalizing r r' configs' with
  | nil => exact nofun
  | cons c configs ih =>
    rw [shutdownConfigs] at h
    obtain ⟨⟨⟨⟩, r₁⟩, h₁, h⟩ := bind_eq_ok.mp h
    obtain ⟨⟨configs'', r₂⟩, h₂, -⟩ := bind_eq_ok.mp h
    refine List.forall_mem_cons.mpr ⟨fun hdb => ?_, ih h₂⟩
    rw [hdb] at h₁
    cases h₁

/-- Pointers that are null or stand on live objects of their own are deleted without fault, and
their objects are gone. -/
theorem shutdownConfigs_eq_ok {configs : List Config} {r : Rocks}
    (hlive : ∀ c ∈ configs, c.db = .null ∨ ∃ id, c.db = .object id ∧ (r.live id).isSome)
    (hdistinct : configs.Pairwise fun c d => ∀ id, c.db = .object id → d.db ≠ .object id) :
    ∃ configs' r', shutdownConfigs configs r = .ok (configs', r') ∧
      ∀ id, (r'.live id).isSome → (r.live id).isSome ∧ ∀ c ∈ configs, c.db ≠ .object id := by
  induction configs generalizing r with
  | nil => exact ⟨[], r, rfl, fun id h => ⟨h, List.forall_mem_nil _⟩⟩
  | cons c configs ih =>
    obtain ⟨hc, hcs⟩ := List.forall_mem_cons.mp hlive
    obtain ⟨hne, hpair⟩ := List.pairwise_cons.mp hdistinct
    rcases hc with hdb | ⟨id, hdb, hid⟩
    · obtain ⟨configs', r', h, hrest⟩ := ih hcs hpair
      refine ⟨_, r', by rw [shutdownConfigs, hdb]; simp only [Rocks.deleteDb, ok_bind, h]; rfl,
        fun j hj => ⟨(hrest j hj).1, List.forall_mem_cons.mpr ⟨?_, (hrest j hj).2⟩⟩⟩
      rw [hdb]
      intro h
      cases h
    · obtain ⟨o, ho⟩ := Option.isSome_iff_exists.mp hid
      have hdelete := Rocks.deleteDb_object ho
      have hcs' : ∀ d ∈ configs, d.db = .null ∨ ∃ j, d.db = .object j ∧
          (if j = id then none else r.live j).isSome := by
        intro d hd
        rcases hcs d hd with h | ⟨j, hj, hl⟩
        · exact .inl h
        · have hji : j ≠ id := fun heq => hne d hd id hdb (heq ▸ hj)
          exact .inr ⟨j, hj, by rw [if_neg hji]; exact hl⟩
      obtain ⟨configs', r', h, hrest⟩ :=
        ih (r := { r with live := fun j => if j = id then none else r.live j }) hcs' hpair
      refine ⟨_, r', by rw [shutdownConfigs, hdb, hdelete]; simp only [ok_bind, h]; rfl,
        fun j hj => ?_⟩
      obtain ⟨hl, hds⟩ := hrest j hj
      dsimp only at hl
      split at hl
      · cases hl
      · next hji =>
        refine ⟨hl, List.forall_mem_cons.mpr ⟨fun heq => hji ?_, hds⟩⟩
        cases hdb.symm.trans heq
        rfl

/-- From a state between requests the handler comes through exactly if no pointer is indeterminate,
and then it leaves no object. -/
theorem shutdown_cases {w : World} (hw : w.Inv) :
    (∃ c ∈ w.configs, c.db = .indeterminate) ∧ shutdown w = .error .undefined ∨
    (∀ c ∈ w.configs, c.db ≠ .indeterminate) ∧
      ∃ w', shutdown w = .ok ((), w') ∧ w'.rocks.live = fun _ => none := by
  by_cases hdb : ∃ c ∈ w.configs, c.db = .indeterminate
  · refine .inl ⟨hdb, ?_⟩
    obtain ⟨c, hc, hdb⟩ := hdb
    cases h : shutdownConfigs w.configs w.rocks with
    | ok p => exact absurd hdb (shutdownConfigs_determinate h c hc)
    | error f =>
      rw [shutdownConfigs_fault h] at h
      simp [shutdown, h]
  · have hdb : ∀ c ∈ w.configs, c.db ≠ .indeterminate := fun c hc h => hdb ⟨c, hc, h⟩
    refine .inr ⟨hdb, ?_⟩
    have hlive : ∀ c ∈ w.configs,
        c.db = .null ∨ ∃ id, c.db = .object id ∧ (w.rocks.live id).isSome := by
      intro c hc
      obtain ⟨i, hi⟩ := List.mem_iff_getElem?.mp hc
      cases hopen : c.isOpen with
      | true =>
        obtain ⟨id, hid⟩ := hw.opened hi hopen
        exact .inr ⟨id, hid.db, by rw [hid.live]; rfl⟩
      | false => exact .inl ((hw.closed hi hopen).resolve_right (hdb c hc))
    have hdistinct : w.configs.Pairwise fun c d => ∀ id, c.db = .object id → d.db ≠ .object id := by
      refine List.pairwise_iff_getElem.mpr fun i j hi hj hij id hc hd => ?_
      exact hij.ne (hw.unique (List.getElem?_eq_getElem hi) (List.getElem?_eq_getElem hj) hc hd)
    obtain ⟨configs', r', h, hrest⟩ := shutdownConfigs_eq_ok hlive hdistinct
    refine ⟨⟨configs', r'⟩, by simp [shutdown, h], ?_⟩
    funext id
    by_contra hid
    obtain ⟨hl, hnone⟩ := hrest id (Option.isSome_iff_ne_none.mpr hid)
    obtain ⟨i, c, hi, hc⟩ := hw.owned hl
    exact hnone c (List.mem_of_getElem? hi) hc

/-! ## Whole runs -/

namespace Process

/-- Between two handlers every live object is the object of a configuration, of one only, and after
the signal there is none. -/
structure Sound (p : Process) : Prop where
  owned : ∀ {id : Nat}, (p.world.rocks.live id).isSome →
    ∃ (i : Nat) (c : Config), p.world.configs[i]? = some c ∧ c.db = .object id
  unique : p.stopped = false → ∀ {i j : Nat} {c d : Config} {id : Nat},
    p.world.configs[i]? = some c → p.world.configs[j]? = some d → c.db = .object id →
    d.db = .object id → i = j
  /-- The object of a first-time creation inside `open` is gone before the second `DB::Open`. -/
  creation : p.stopped = false → ∀ {c c' : Config} {r' : Rocks},
    c.createDb p.world.rocks = .ok (c', r') → r'.live = p.world.rocks.live
  stopped : p.stopped = true → p.world.rocks.live = fun _ => none

/-- No call and no deletion in the course of the events uses a pointer that is not live (null may be
deleted), and the process is sound after each of them. -/
def Lawful (p : Process) (events : List ProcessEvent) : Prop :=
  run step events p ≠ .error .undefined ∧
    ∀ (before : List ProcessEvent) (replies : List (Option Value)) (p' : Process),
      before <+: events → run step before p = .ok (replies, p') → p'.Sound

/-- The first signal comes to a process that has served the requests `inps`. -/
def SignalAfter (w : World) (events : List ProcessEvent) (inps : List Bytes) : Prop :=
  (∃ rest, events = inps.map .request ++ .signal :: rest) ∧
    Outcome.Returns (run execReply inps w)

/-- What the events keep. -/
def Inv (p : Process) : Prop :=
  if p.stopped then p.world.rocks.live = fun _ => none else p.world.Inv

theorem Inv.sound {p : Process} (h : p.Inv) : p.Sound := by
  unfold Inv at h
  split at h
  · next hs =>
    refine ⟨fun hid => ?_, fun hs' => ?_, fun hs' => ?_, fun _ => h⟩
    · rw [h] at hid; cases hid
    · rw [hs] at hs'; cases hs'
    · rw [hs] at hs'; cases hs'
  · next hs =>
    exact ⟨h.owned, fun _ => h.unique, fun _ _ _ _ hc => (Config.createDb_effect hc).2.2.2 h.fresh,
      fun hs' => absurd hs' hs⟩

theorem Inv.step {event : ProcessEvent} {p p' : Process} {reply : Option Value} (hp : p.Inv)
    (h : step event p = .ok (reply, p')) : p'.Inv := by
  unfold Process.step at h
  split at h
  · cases h; exact hp
  next hs =>
  rw [Inv, if_neg hs] at hp
  cases event with
  | request inp =>
    obtain ⟨⟨v, w'⟩, hw, h⟩ := bind_eq_ok.mp h
    cases h
    rw [Inv, if_neg hs]
    exact (hp.execReply hw).1
  | signal =>
    obtain ⟨⟨⟨⟩, w'⟩, hw, h⟩ := bind_eq_ok.mp h
    cases h
    rcases shutdown_cases hp with ⟨-, he⟩ | ⟨-, w'', he, hl⟩
    · rw [he] at hw; cases hw
    · cases he.symm.trans hw
      exact hl

theorem run_requests (inps : List Bytes) (w : World) :
    run step (inps.map .request) ⟨w, false⟩ =
      (do let (replies, w) ← run execReply inps w; return (replies.map some, ⟨w, false⟩)) := by
  induction inps generalizing w with
  | nil => rfl
  | cons inp inps ih =>
    simp only [List.map_cons, run, step, Bool.false_eq_true, if_false, bind_assoc, pure_bind]
    apply bind_congr_ok
    rintro ⟨reply, w₁⟩ -
    simp [ih]

theorem run_stopped (events : List ProcessEvent) {p : Process} (h : p.stopped = true) :
    run step events p = .ok (events.map fun _ => none, p) := by
  induction events with
  | nil => rfl
  | cons event events ih => simp [run, step, h, ih]

/-- Events are requests only, or requests up to a first signal. -/
theorem events_cases (events : List ProcessEvent) :
    ∃ inps : List Bytes, events = inps.map .request ∨
      ∃ rest, events = inps.map .request ++ .signal :: rest := by
  induction events with
  | nil => exact ⟨[], .inl rfl⟩
  | cons event events ih =>
    cases event with
    | signal => exact ⟨[], .inr ⟨events, rfl⟩⟩
    | request inp =>
      obtain ⟨inps, rfl | ⟨rest, rfl⟩⟩ := ih
      · exact ⟨inp :: inps, .inl rfl⟩
      · exact ⟨inp :: inps, .inr ⟨rest, rfl⟩⟩

theorem run_requests_fault {w : World} (hw : w.Inv) {inps : List Bytes} :
    run execReply inps w ≠ .error .undefined := fun h =>
  run_fault (I := World.Inv) (Q := fun f => f ≠ .undefined) (A := fun _ => True)
    (fun _ hw h => (World.Inv.execReply hw h).1) (fun _ hw h => execReply_fault hw h)
    (fun _ _ => trivial) hw h rfl

/-- When the first signal comes after requests that have returned, the run is undefined exactly if a
pointer is indeterminate then. -/
theorem run_signal {w w' : World} (hw : w.Inv) {inps : List Bytes} {replies : List Value}
    (h : run execReply inps w = .ok (replies, w')) (rest : List ProcessEvent) :
    run step (inps.map .request ++ .signal :: rest) ⟨w, false⟩ = .error .undefined ↔
      ∃ c ∈ w'.configs, c.db = .indeterminate := by
  obtain ⟨hw', -, -⟩ := run_indeterminate hw h
  rw [run_append, run_requests, h]
  simp only [ok_bind, pure_bind, run, step, Bool.false_eq_true, if_false, bind_assoc]
  rcases shutdown_cases hw' with ⟨hc, he⟩ | ⟨hc, w'', he, -⟩
  · simp only [he, error_bind, true_iff]
    exact hc
  · simp only [he, ok_bind, run_stopped]
    refine iff_of_false (fun h => by cases h) ?_
    rintro ⟨c, hmem, hdb⟩
    exact hc c hmem hdb

end Process

/-- The pointers are used and deleted lawfully if and only if each configured database has been
asked for before the first signal comes. -/
theorem lawful_iff_named {file : Bytes} {configs : List Config} {rocks : Rocks}
    (hread : readConfigs rocks.api file = .ok (some configs)) (hlive : rocks.live = fun _ => none)
    (events : List ProcessEvent) :
    Process.Lawful ⟨⟨configs, rocks⟩, false⟩ events ↔
      ∀ inps, Process.SignalAfter ⟨configs, rocks⟩ events inps →
        ∀ i < configs.length, ∃ inp ∈ inps, Names configs inp i := by
  have hstart := readConfigs_start hread
  have hw : World.Inv ⟨configs, rocks⟩ := .start hstart hlive
  have hsound : ∀ (before : List ProcessEvent) (replies : List (Option Value)) (p' : Process),
      run Process.step before ⟨⟨configs, rocks⟩, false⟩ = .ok (replies, p') → p'.Sound :=
    fun before replies p' h => Process.Inv.sound <|
      run_invariant (I := Process.Inv) (A := fun _ => True) (s := ⟨⟨configs, rocks⟩, false⟩)
        (fun _ hp h => hp.step h)
        (fun _ _ => trivial) hw h
  -- the pointers after some requests, by the invariant of the run
  have hpointers : ∀ {inps : List Bytes} {replies : List Value} {w' : World},
      run execReply inps ⟨configs, rocks⟩ = .ok (replies, w') →
        ((∃ c ∈ w'.configs, c.db = .indeterminate) ↔
          ¬ ∀ i < configs.length, ∃ inp ∈ inps, Names configs inp i) := by
    intro inps replies w' h
    obtain ⟨-, hs, hdb⟩ := run_indeterminate hw h
    have hlen : w'.configs.length = configs.length := by
      simpa using congrArg List.length hs.settings
    have hdb₀ : ∀ {i : Nat} (hi : i < configs.length), configs[i].db = .indeterminate := by
      intro i hi
      rw [(hstart _ (List.getElem_mem hi)).1]
      rfl
    constructor
    · rintro ⟨c, hc, hind⟩ hall
      obtain ⟨i, hi⟩ := List.mem_iff_getElem?.mp hc
      have hilt : i < configs.length := hlen ▸ (List.getElem?_eq_some_iff.mp hi).1
      obtain ⟨inp, hinp, hn⟩ := hall i hilt
      exact ((hdb (List.getElem?_eq_getElem hilt) hi).mp hind).2 inp hinp hn
    · intro hnot
      simp only [not_forall, not_exists, not_and] at hnot
      obtain ⟨i, hi, hn⟩ := hnot
      have hi' : i < w'.configs.length := hlen ▸ hi
      exact ⟨w'.configs[i], List.getElem_mem hi', (hdb (List.getElem?_eq_getElem hi)
        (List.getElem?_eq_getElem hi')).mpr ⟨hdb₀ hi, hn⟩⟩
  constructor
  · rintro ⟨hrun, -⟩ inps ⟨⟨rest, rfl⟩, ⟨replies, w'⟩, h⟩
    by_contra hnot
    exact hrun ((Process.run_signal hw h rest).mpr ((hpointers h).mpr hnot))
  · intro hnamed
    refine ⟨fun hrun => ?_, fun before replies p' _ h => hsound before replies p' h⟩
    obtain ⟨inps, rfl | ⟨rest, rfl⟩⟩ := Process.events_cases events
    · rw [Process.run_requests] at hrun
      rcases bind_eq_error.mp hrun with h | ⟨_, -, h⟩
      · exact Process.run_requests_fault hw h
      · cases h
    · cases h : run execReply inps ⟨configs, rocks⟩ with
      | error f =>
        rw [run_append, Process.run_requests, h] at hrun
        cases hrun
        exact Process.run_requests_fault hw h
      | ok p =>
        obtain ⟨replies, w'⟩ := p
        exact (hpointers h).mp ((Process.run_signal hw h rest).mp hrun)
          (hnamed inps ⟨⟨rest, rfl⟩, ⟨_, h⟩⟩)

/-- Without a request the signal handler deletes an indeterminate pointer. -/
theorem signal_without_request :
    readConfigs rocksdbApi plainFile = .ok (some [plainConfig]) ∧
      run Process.step [.signal] ⟨⟨[plainConfig], emptyRocks⟩, false⟩ = .error .undefined ∧
      ¬ Process.Lawful ⟨⟨[plainConfig], emptyRocks⟩, false⟩ [.signal] :=
  ⟨readConfigs_plainFile, rfl, fun h => h.1 rfl⟩

theorem lawful_get_signal :
    Process.Lawful ⟨⟨[plainConfig], emptyRocks⟩, false⟩ [.request getPayload, .signal] := by
  have hread : readConfigs emptyRocks.api plainFile = .ok (some [plainConfig]) :=
    readConfigs_plainFile
  refine (lawful_iff_named hread rfl _).mpr fun inps hs i hi => ?_
  obtain rfl : i = 0 := Nat.lt_one_iff.mp hi
  obtain ⟨rest, hevents⟩ := hs.1
  have hname : Names [plainConfig] getPayload 0 :=
    ⟨ascii "a", _, requestOf_getPayload, by decide, rfl⟩
  cases inps with
  | nil => cases hevents
  | cons inp inps =>
    obtain ⟨heq, -⟩ := List.cons.inj hevents
    cases heq
    exact ⟨getPayload, List.mem_cons_self, hname⟩

end RocksdbService
