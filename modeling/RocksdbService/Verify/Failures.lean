import RocksdbService.Verify.Answers
import RocksdbService.Verify.Handles
import RocksdbService.Verify.Lifecycle

/-! # Failing calls in `config::open`

`open` reports the status of its last call and asserts those of a first-time creation before it. So it
survives a failure, with error 4 and nothing left behind, exactly when it is not one of those
(`survivesOpen_iff`). -/

namespace RocksdbService

open Outcome
open Json (Value)

/-- Every call between two states was served. -/
def Rocks.AllServed (r r' : Rocks) : Prop := ∀ k, r.calls ≤ k → k < r'.calls → r.answers k = .serve

theorem Rocks.allServed_iff {r r' : Rocks} {n : Nat} (h : r'.calls = r.calls + (n + 1)) :
    r.AllServed r' ↔ r.ServesFor n ∧ r.answers (r.calls + n) = .serve := by
  constructor
  · intro hall
    refine ⟨fun k hk => hall _ (Nat.le_add_right _ _) ?_, hall _ (Nat.le_add_right _ _) ?_⟩ <;>
      rw [h] <;> omega
  · rintro ⟨hbefore, hlast⟩ k hle hlt
    obtain ⟨j, rfl⟩ := Nat.exists_eq_add_of_le hle
    rcases Nat.lt_succ_iff_lt_or_eq.mp (show j < n + 1 by omega) with hj | rfl
    · exact hbefore j hj
    · exact hlast

/-- `open` has reported whether its calls were served. -/
structure Config.Reports (c : Config) (r : Rocks) (reply : Value) (c' : Config) (r' : Rocks) :
    Prop where
  settings : c'.settings = c.settings
  opened : reply = errorReply 0 ∧ c'.isOpen = true ↔ r.AllServed r'
  failed : ¬ r.AllServed r' →
    reply = errorReply 4 ∧ c'.isOpen = false ∧ c'.db = .null ∧ r'.live = r.live ∧
      r'.contents = r.contents

/-- `open` returns, and when a call was refused the service goes on: the request that made it is answered
and the next one tries again. -/
structure World.SurvivesOpen (w : World) (i : Nat) (c : Config) : Prop where
  returns : ∃ reply c' r', c.open w.rocks = .ok ((reply, c'), r') ∧ c.Reports w.rocks reply c' r'
  answered : ∀ reply c' r' inp, c.open w.rocks = .ok ((reply, c'), r') → c'.isOpen = false →
    Names w.configs inp i → execReply inp w = .ok (errorReply 4, ⟨w.configs.set i c', r'⟩)
  again : ∀ reply c' r' inp reply' w', c.open w.rocks = .ok ((reply, c'), r') → c'.isOpen = false →
    Names w.configs inp i → execReply inp ⟨w.configs.set i c', r'⟩ = .ok (reply', w') →
    r'.calls < w'.rocks.calls

namespace Config

theorem open_reports {c c' : Config} {r r' : Rocks} {reply : Value} (hr : r.Fresh)
    (hclosed : c.isOpen = false) (hreturns : r.ServesFor (c.creationCalls r))
    (h : c.open r = .ok ((reply, c'), r')) : c.Reports r reply c' r' := by
  have H := open_effect h
  obtain ⟨hopens, hcalls⟩ := (open_answers c r).2 reply c' r' h
  have hall : r.AllServed r' ↔ c'.isOpen = true := by
    rw [Rocks.allServed_iff (n := c.creationCalls r) (by rw [hcalls]; simp [openCalls, hclosed]),
      hopens]
    simp [Opens, hclosed, hreturns]
  rcases H.outcome with ⟨ho, -⟩ | ⟨-, ho, hreply, -⟩ | ⟨-, ho, hreply, hdb, hlive⟩
  · rw [hclosed] at ho; cases ho
  · refine ⟨H.settings, ?_, fun hnot => absurd (hall.mpr ho) hnot⟩
    rw [hall, ho]
    exact iff_of_true ⟨hreply, rfl⟩ rfl
  · refine ⟨H.settings, ?_, fun _ => ⟨hreply, ho, hdb, hlive hr, H.data.contents⟩⟩
    rw [hall, ho]
    exact iff_of_false (fun h => Bool.false_ne_true h.2) Bool.false_ne_true

end Config

/-- A request that names a configuration comes to its `open`. -/
theorem Names.execReply {w : World} (hw : w.Inv) {inp : Bytes} {i : Nat} {c : Config}
    (hn : Names w.configs inp i) (hi : w.configs[i]? = some c) :
    ∃ command, execReply inp w = (do
      let ((reply, item), rocks) ← c.open w.rocks
      if item.isOpen then
        let (reply, rocks) ← runCommand item (← command) rocks
        return (reply, ⟨w.configs.set i item, rocks⟩)
      else return (reply, ⟨w.configs.set i item, rocks⟩)) := by
  obtain ⟨name, command, hq, hname, hidx⟩ := hn
  have hfind : w.find? name = some (i, c) := by simp [World.find?, hidx, hi]
  refine ⟨command, ?_⟩
  rw [execReply_eq inp hw, hq]
  exact World.request_of_find hname hfind command

theorem survivesOpen_iff {w : World} (hw : w.Inv) {i : Nat} {c : Config}
    (hi : w.configs[i]? = some c) (hclosed : c.isOpen = false) :
    w.SurvivesOpen i c ↔ w.rocks.ServesFor (c.creationCalls w.rocks) := by
  obtain ⟨hret, hend⟩ := Config.open_answers c w.rocks
  simp only [Config.OpenReturns, hclosed, Bool.false_eq_true, false_or] at hret
  rw [← hret]
  refine ⟨fun h => ?_, fun hreturns => ⟨?_, ?_, ?_⟩⟩
  · obtain ⟨reply, c', r', h, -⟩ := h.returns
    exact ⟨_, h⟩
  · obtain ⟨⟨⟨reply, c'⟩, r'⟩, h⟩ := hreturns
    exact ⟨reply, c', r', h, Config.open_reports hw.fresh hclosed (hret.mp ⟨_, h⟩) h⟩
  · intro reply c' r' inp h ho hn
    have R := Config.open_reports hw.fresh hclosed (hret.mp ⟨_, h⟩) h
    obtain ⟨hreply, -⟩ := R.failed fun hall => by
      rw [(R.opened.mpr hall).2] at ho
      cases ho
    obtain ⟨command, heq⟩ := hn.execReply hw hi
    rw [heq, h, ok_bind]
    simp only [ho, Bool.false_eq_true, if_false]
    rw [hreply]
    rfl
  · intro reply c' r' inp reply' w' h ho hn h'
    have hset := World.map_settings_set hi (Config.open_effect h).settings
    have hi' : (w.configs.set i c')[i]? = some c' :=
      List.getElem?_set_self (List.getElem?_eq_some_iff.mp hi).1
    have hw' := hw.open hi h
    obtain ⟨command, heq⟩ := ((Names.congr hset).mpr hn).execReply hw' hi'
    rw [heq] at h'
    obtain ⟨⟨⟨reply₁, c₁⟩, r₁⟩, h₁, h'⟩ := bind_eq_ok.mp h'
    obtain ⟨-, hcalls⟩ := (Config.open_answers c' r').2 reply₁ c₁ r₁ h₁
    have hlt : r'.calls < r₁.calls := by
      rw [hcalls, Config.openCalls, ho]
      simp
    dsimp only at h'
    split at h'
    · next hopen =>
      obtain ⟨command, -, h'⟩ := bind_eq_ok.mp h'
      obtain ⟨⟨reply₂, r₂⟩, h₂, h'⟩ := bind_eq_ok.mp h'
      cases h'
      have hw₁ := hw'.open hi' h₁
      have hi₁ : ((w.configs.set i c').set i c₁)[i]? = some c₁ :=
        List.getElem?_set_self (List.getElem?_eq_some_iff.mp hi').1
      obtain ⟨id, hid⟩ := hw₁.opened hi₁ hopen
      obtain ⟨contents, n, rfl⟩ := hid.command_state (hw₁.aligned hi₁) h₂
      exact Nat.lt_add_right n hlt
    · cases h'
      exact hlt

theorem familiesConfig_inv {rocks : Rocks} (hlive : rocks.live = fun _ => none) :
    World.Inv ⟨[familiesConfig], rocks⟩ := by
  refine .start (fun c hc => ?_) hlive
  cases List.mem_singleton.mp hc
  exact ⟨rfl, ⟨nofun, fun _ => rfl⟩⟩

/-- A database that exists and whose `DB::Open` is refused. -/
theorem survivesOpen_refused : World.SurvivesOpen ⟨[familiesConfig], refusingRocks⟩ 0 familiesConfig :=
  (survivesOpen_iff (familiesConfig_inv rfl) rfl rfl).mpr fun _ hk => nomatch hk

/-- A new database of which the first family is refused: the process ends in an assertion. -/
theorem open_refused_family :
    familiesConfig.open { emptyRocks with answers := fun k => if k = 1 then .refuse false else .serve } =
        .error .assertion ∧
      ¬ World.SurvivesOpen ⟨[familiesConfig], { emptyRocks with
        answers := fun k => if k = 1 then .refuse false else .serve }⟩ 0 familiesConfig := by
  have h : familiesConfig.open { emptyRocks with
      answers := fun k => if k = 1 then .refuse false else .serve } = .error .assertion := rfl
  refine ⟨h, fun hs => ?_⟩
  obtain ⟨reply, c', r', h', -⟩ := hs.returns
  cases h.symm.trans h'

end RocksdbService
