import RocksdbService.Verify.Replies

/-! # What a request does to the stores

Only an operation that comes to a configured, open database and whose call is served changes the stores,
and then by the pairs that it writes (`execReply_contents`). -/

namespace RocksdbService

open Outcome
open Json (Value)

namespace Command

/-- The family that an operation writes to, and the pairs it writes. -/
def writes (command : Command) (c : Config) : Option (Bytes × List (Bytes × Bytes)) :=
  match command with
  | .put key value => some (kDefaultColumnFamilyName, [(key, value.bytes)])
  | .putCf column key value => if column ∈ c.cfNames then some (column, [(key, value.bytes)]) else none
  | .writeBatch items => some (kDefaultColumnFamilyName, batchBytes items)
  | .get _ | .getCf _ _ | .unknown => none

/-- The stores after the operation on `c`, if RocksDB serves its call. -/
def applied (command : Command) (c : Config) (contents : Contents) : Contents :=
  match command.writes c with
  | some (family, kvs) => contents.putAll c.path family kvs
  | none => contents

theorem writes_congr (command : Command) {c c' : Config} (h : c'.settings = c.settings) :
    command.writes c' = command.writes c := by
  obtain ⟨-, -, -, hnames, -⟩ := Config.settings_eq_iff.mp h
  cases command <;> simp [writes, hnames]

theorem applied_congr (command : Command) {c c' : Config} (h : c'.settings = c.settings) :
    command.applied c' = command.applied c := by
  obtain ⟨-, hpath, -⟩ := Config.settings_eq_iff.mp h
  funext contents
  unfold applied
  rw [hpath, command.writes_congr h]

/-- Only a write that is served is answered with the code 0. -/
theorem writes_of_code {command : Command} {c : Config} {served : Bool}
    (h : command.code c served = 0) :
    served = true ∧ ∃ family kvs, command.writes c = some (family, kvs) := by
  have hserved : (if served then (0 : Int) else -2) = 0 → served = true := by
    cases served <;> decide
  cases command with
  | put key value => exact ⟨hserved h, _, _, rfl⟩
  | putCf column key value =>
    dsimp only [code] at h
    split at h
    · next hmem => exact ⟨hserved h, column, _, if_pos hmem⟩
    · cases h
  | writeBatch items => exact ⟨hserved h, _, _, rfl⟩
  | get key => cases h
  | getCf column key =>
    dsimp only [code] at h
    split at h <;> cases h
  | unknown => cases h

/-- A write finds nothing, and is answered with the code 0 if it is served. -/
theorem code_of_writes {command : Command} {c : Config} {p : Bytes × List (Bytes × Bytes)}
    (h : command.writes c = some p) : command.addressed c = none ∧ command.code c true = 0 := by
  cases command with
  | put key value => exact ⟨rfl, rfl⟩
  | putCf column key value =>
    dsimp only [writes] at h
    split at h
    · next hmem => exact ⟨rfl, if_pos hmem⟩
    · cases h
  | writeBatch items => exact ⟨rfl, rfl⟩
  | get key => cases h
  | getCf column key => cases h
  | unknown => cases h

end Command

theorem Rocks.writeAt_contents (r : Rocks) (contents : Contents) :
    (r.writeAt contents).2.contents = if r.serves then contents else r.contents := by
  unfold Rocks.writeAt
  cases r.serves <;> rfl

/-- What an operation on an open configuration makes of the stores. -/
theorem runCommand_contents {c : Config} {r r' : Rocks} {id : Nat} (h : c.OpenOn r id)
    (ha : c.Aligned) {command : Command} {reply : Value}
    (hr : runCommand c command r = .ok (reply, r')) :
    r'.contents = if r.serves then command.applied c r.contents else r.contents := by
  have hwrite : ∀ {family : Bytes} {kvs : List (Bytes × Bytes)},
      command.writes c = some (family, kvs) →
      r.writeAt (r.contents.putAll c.path family kvs) = (reply, r') →
      r'.contents = if r.serves then command.applied c r.contents else r.contents := by
    intro family kvs hwrites hr
    have := r.writeAt_contents (r.contents.putAll c.path family kvs)
    rw [hr] at this
    rw [Command.applied, hwrites]
    exact this
  have hsame : command.writes c = none → r'.contents = r.contents →
      r'.contents = if r.serves then command.applied c r.contents else r.contents := by
    intro hwrites hr
    rw [Command.applied, hwrites, hr, ite_self]
  have hread : ∀ {path family key : Bytes},
      (do return (← r.readAt path family key, r.tick) : Outcome _) = .ok (reply, r') →
        r'.contents = r.contents := by
    intro path family key hr
    obtain ⟨v, -, hr⟩ := bind_eq_ok.mp hr
    cases hr
    rfl
  rw [runCommand_eq h ha] at hr
  cases command with
  | put key value => exact hwrite rfl (Except.ok.inj hr)
  | putCf column key value =>
    dsimp only at hr
    split at hr
    · next hmem => exact hwrite (if_pos hmem) (Except.ok.inj hr)
    · next hmem => cases hr; exact hsame (if_neg hmem) rfl
  | writeBatch items => exact hwrite rfl (Except.ok.inj hr)
  | get key => exact hsame rfl (hread hr)
  | getCf column key =>
    dsimp only at hr
    split at hr
    · exact hsame rfl (hread hr)
    · cases hr; exact hsame rfl rfl
  | unknown => cases hr; exact hsame rfl rfl

namespace World

/-- The payload is an operation on the configured database `c`, which is open when it is due. -/
structure Performs (w : World) (inp : Bytes) (command : Command) (c : Config) : Prop where
  request : ∃ name i, requestOf inp = .ok (.named name (.ok command)) ∧ name ≠ [] ∧
    w.find? name = some (i, c)
  opens : c.Opens w.rocks

theorem Performs.unique {w : World} {inp : Bytes} {command command' : Command} {c c' : Config}
    (h : w.Performs inp command c) (h' : w.Performs inp command' c') : command' = command ∧ c' = c := by
  obtain ⟨name, i, hq, -, hfind⟩ := h.request
  obtain ⟨name', i', hq', -, hfind'⟩ := h'.request
  cases hq.symm.trans hq'
  cases hfind.symm.trans hfind'
  exact ⟨rfl, rfl⟩

/-- An operation is performed on the stores exactly if its call is served. -/
theorem execReply_contents {w w' : World} (hw : w.Inv) {inp : Bytes} {reply : Value}
    (h : execReply inp w = .ok (reply, w')) :
    (∃ command c, w.Performs inp command c ∧ w'.rocks.contents =
      if w.serves c then command.applied c w.rocks.contents else w.rocks.contents) ∨
    (¬ ∃ command c, w.Performs inp command c) ∧ w'.rocks.contents = w.rocks.contents := by
  rw [execReply_eq inp hw] at h
  obtain ⟨q, hq, h⟩ := bind_eq_ok.mp h
  have hnot : (∀ name command i c, q = .named name (.ok command) → name ≠ [] →
      w.find? name = some (i, c) → ¬ c.Opens w.rocks) → ¬ ∃ command c, w.Performs inp command c := by
    rintro hnot ⟨command, c, ⟨name, i, hq', hname, hfind⟩, hopens⟩
    cases hq.symm.trans hq'
    exact hnot name command i c rfl hname hfind hopens
  cases q with
  | rejected => cases h; exact .inr ⟨hnot nofun, rfl⟩
  | named name command =>
    change w.request name command = _ at h
    unfold World.request at h
    split at h
    · next hname =>
      cases h
      refine .inr ⟨hnot fun _ _ _ _ hq hname' => ?_, rfl⟩
      cases hq
      exact absurd hname hname'
    split at h
    · next hfind =>
      cases h
      refine .inr ⟨hnot fun _ _ _ _ hq _ hfind' => ?_, rfl⟩
      cases hq
      cases hfind.symm.trans hfind'
    next hname _ i c hfind =>
    obtain ⟨⟨⟨reply₁, c'⟩, rocks⟩, ho, h⟩ := bind_eq_ok.mp h
    have H := Config.open_effect ho
    obtain ⟨hopens, hcalls⟩ := (Config.open_answers c w.rocks).2 _ _ _ ho
    obtain ⟨hi, -, -⟩ := find?_eq_some hfind
    dsimp only at h
    split at h
    · next hopen =>
      obtain ⟨command', hcommand, hrun⟩ := bind_eq_ok.mp h
      obtain ⟨⟨reply₂, rocks'⟩, hr, hrun⟩ := bind_eq_ok.mp hrun
      cases hrun
      subst hcommand
      have hw' := hw.open hi ho
      have hset : (w.configs.set i c')[i]? = some c' :=
        List.getElem?_set_self (List.getElem?_eq_some_iff.mp hi).1
      obtain ⟨id, hid⟩ := hw'.opened hset hopen
      have hserves : rocks.serves = w.serves c := by
        simp only [Rocks.serves, World.serves, H.data.answers, hcalls]
      refine .inl ⟨command', c, ⟨⟨name, i, hq, hname, hfind⟩, hopens.mp hopen⟩, ?_⟩
      rw [← H.data.contents, ← hserves, ← command'.applied_congr H.settings]
      exact runCommand_contents hid (hw'.aligned hset) hr
    · next hopen =>
      cases h
      refine .inr ⟨hnot fun _ _ _ _ hq _ hfind' hopens' => ?_, H.data.contents⟩
      cases hq
      cases hfind.symm.trans hfind'
      exact hopen (hopens.mpr hopens')

/-- What an operation on a database that is open when it is due makes of the stores. -/
theorem Performs.contents {w w' : World} (hw : w.Inv) {inp : Bytes} {command : Command} {c : Config}
    (hp : w.Performs inp command c) {reply : Value} (h : execReply inp w = .ok (reply, w')) :
    w'.rocks.contents =
      if w.serves c then command.applied c w.rocks.contents else w.rocks.contents := by
  rcases execReply_contents hw h with ⟨command', c', hp', heq⟩ | ⟨hnone, -⟩
  · obtain ⟨rfl, rfl⟩ := hp.unique hp'
    exact heq
  · exact absurd ⟨command, c, hp⟩ hnone

/-- A write that is served is answered with the code 0. -/
theorem Performs.reply_of_writes {w w' : World} (hw : w.Inv) {inp : Bytes} {command : Command}
    {c : Config} (hp : w.Performs inp command c) {reply : Value}
    (h : execReply inp w = .ok (reply, w')) (hserves : w.serves c = true)
    {p : Bytes × List (Bytes × Bytes)} (hwrites : command.writes c = some p) :
    reply = errorReply 0 := by
  obtain ⟨haddr, hcode⟩ := Command.code_of_writes hwrites
  obtain ⟨name, i, hq, hname, hfind⟩ := hp.request
  rw [execReply_eq inp hw, hq] at h
  change w.request name (.ok command) = _ at h
  rcases request_cases hw (.ok command) hname hfind with ⟨-, hnot⟩ | ⟨-, hnot, -⟩ | ⟨-, -, w'', heq⟩
  · exact absurd ⟨_, h⟩ hnot
  · exact absurd hp.opens hnot
  · rw [heq, ok_bind, hserves, Command.fetched, haddr, hcode] at h
    cases h
    rfl

/-- An operation that finds no value is answered with its code. -/
theorem Performs.returns {w : World} (hw : w.Inv) {inp : Bytes} {command : Command} {c : Config}
    (hp : w.Performs inp command c) (hreturns : c.OpenReturns w.rocks)
    (hfetched : command.fetched c w.rocks.contents (w.serves c) = none) :
    ∃ w', execReply inp w = .ok (errorReply (command.code c (w.serves c)), w') := by
  obtain ⟨name, i, hq, hname, hfind⟩ := hp.request
  rw [execReply_eq inp hw, hq]
  change ∃ w', w.request name (.ok command) = .ok (_, w')
  rcases request_cases hw (.ok command) hname hfind with
    ⟨hnot, -⟩ | ⟨-, hnot, -⟩ | ⟨-, -, w', h⟩
  · exact absurd hreturns hnot
  · exact absurd hp.opens hnot
  · refine ⟨w', ?_⟩
    rw [h, ok_bind, hfetched]
    rfl

end World

end RocksdbService
