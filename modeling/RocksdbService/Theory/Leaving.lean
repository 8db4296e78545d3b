import RocksdbService.Theory.Outcome

/-! # What a fault leaves behind

A call `σ → Outcome (α × σ)` says nothing about the state when it faults. `Leaving σ α` is a call that
also says in which state it leaves the process then. `result` forgets that again; `Leaves` is the
postcondition of such a call, taken apart along the sequence of its steps (`leaves_bind`). -/

namespace RocksdbService

/-- A call with the state it leaves, whether it returns or not. -/
abbrev Leaving (σ α : Type) := ExceptT Fault (StateM σ) α

namespace Leaving

variable {σ τ α β : Type}

/-- A call that does not change the state. -/
def lift (x : Outcome α) : Leaving σ α := ExceptT.mk fun s => (x, s)

/-- A call that changes the state only when it returns. -/
def call (f : σ → Outcome (α × σ)) : Leaving σ α := ExceptT.mk fun s =>
  match f s with
  | .ok (a, s') => (.ok a, s')
  | .error e => (.error e, s)

/-- A call on a part of the state. -/
def zoom (get : τ → σ) (set : σ → τ → τ) (x : Leaving σ α) : Leaving τ α := ExceptT.mk fun t =>
  let (r, s) := x.run (get t)
  (r, set s t)

theorem run_call (f : σ → Outcome (α × σ)) (s : σ) : (call f).run s =
    match f s with
    | .ok (a, s') => (.ok a, s')
    | .error e => (.error e, s) := rfl

theorem run_bind (x : Leaving σ α) (f : α → Leaving σ β) (s : σ) : (x >>= f).run s =
    match x.run s with
    | (.ok a, s') => (f a).run s'
    | (.error e, s') => (.error e, s') := by
  change (x.run >>= ExceptT.bindCont f) s = _
  change (match x.run s with | (r, s') => ExceptT.bindCont f r s') = _
  rcases x.run s with ⟨e | a, s'⟩ <;> rfl

/-- The outcome of a call, with the state only when it returns. -/
def result (x : Leaving σ α) (s : σ) : Outcome (α × σ) :=
  match x.run s with
  | (.ok a, s') => .ok (a, s')
  | (.error e, _) => .error e

@[simp] theorem result_pure (a : α) (s : σ) : (pure a : Leaving σ α).result s = .ok (a, s) := rfl

@[simp] theorem result_throw (e : Fault) (s : σ) : (throw e : Leaving σ α).result s = .error e := rfl

@[simp] theorem result_lift (x : Outcome α) (s : σ) :
    (lift x : Leaving σ α).result s = (do return (← x, s)) := by
  cases x <;> rfl

@[simp] theorem result_call (f : σ → Outcome (α × σ)) (s : σ) : (call f).result s = f s := by
  rw [result, run_call]
  cases f s <;> rfl

@[simp] theorem result_bind (x : Leaving σ α) (f : α → Leaving σ β) (s : σ) :
    (x >>= f).result s = (do let (a, s) ← x.result s; (f a).result s) := by
  rw [result, run_bind, result]
  rcases x.run s with ⟨e | a, s'⟩ <;> rfl

@[simp] theorem result_map (f : α → β) (x : Leaving σ α) (s : σ) :
    (f <$> x).result s = (do let (a, s) ← x.result s; return (f a, s)) := by
  rw [map_eq_pure_bind, result_bind]
  rfl

@[simp] theorem result_get (s : σ) : (get : Leaving σ σ).result s = .ok (s, s) := rfl

@[simp] theorem result_modify (f : σ → σ) (s : σ) :
    (modify f : Leaving σ PUnit).result s = .ok (⟨⟩, f s) := rfl

@[simp] theorem result_zoom (get : τ → σ) (set : σ → τ → τ) (x : Leaving σ α) (t : τ) :
    (x.zoom get set).result t = (do let (a, s) ← x.result (get t); return (a, set s t)) := by
  have hrun : (x.zoom get set).run t = ((x.run (get t)).1, set (x.run (get t)).2 t) := rfl
  rw [result, hrun, result]
  rcases x.run (get t) with ⟨e | a, s'⟩ <;> rfl

theorem result_eq_ok {x : Leaving σ α} {s s' : σ} {a : α} :
    x.result s = .ok (a, s') ↔ x.run s = (.ok a, s') := by
  rw [result]
  rcases x.run s with ⟨e | b, s''⟩
  · exact ⟨nofun, nofun⟩
  · exact ⟨fun h => by cases h; rfl, fun h => by cases h; rfl⟩

/-- How the call ends from `s`, and the state it leaves, satisfy `Q`. -/
def Leaves (x : Leaving σ α) (s : σ) (Q : Outcome α → σ → Prop) : Prop := Q (x.run s).1 (x.run s).2

variable {s : σ} {Q : Outcome α → σ → Prop}

theorem leaves_lift {x : Outcome α} : (lift x).Leaves s Q ↔ Q x s := .rfl

theorem leaves_call {f : σ → Outcome (α × σ)} : (call f).Leaves s Q ↔
    (∀ a s', f s = .ok (a, s') → Q (.ok a) s') ∧ ∀ e, f s = .error e → Q (.error e) s := by
  rw [Leaves, run_call]
  cases f s with
  | error e => exact ⟨fun h => ⟨nofun, fun _ he => Except.error.inj he ▸ h⟩, fun h => h.2 e rfl⟩
  | ok p =>
    refine ⟨fun h => ⟨fun a s' heq => ?_, nofun⟩, fun h => h.1 _ _ rfl⟩
    cases heq
    exact h

theorem leaves_bind {x : Leaving σ β} {f : β → Leaving σ α} : (x >>= f).Leaves s Q ↔
    x.Leaves s fun r s' =>
      match r with
      | .ok b => (f b).Leaves s' Q
      | .error e => Q (.error e) s' := by
  rw [Leaves, Leaves, run_bind]
  rcases x.run s with ⟨e | b, s'⟩ <;> exact .rfl

theorem leaves_get {Q : Outcome σ → σ → Prop} : (get : Leaving σ σ).Leaves s Q ↔ Q (.ok s) s := .rfl

theorem leaves_modify {f : σ → σ} {Q : Outcome PUnit → σ → Prop} :
    (modify f : Leaving σ PUnit).Leaves s Q ↔ Q (.ok ⟨⟩) (f s) := .rfl

theorem leaves_lift_bind {x : Outcome β} {f : β → Leaving σ α} (herror : ∀ e, Q (.error e) s)
    (hok : ∀ b, x = .ok b → (f b).Leaves s Q) : (lift x >>= f).Leaves s Q := by
  rw [leaves_bind, leaves_lift]
  cases x with
  | error e => exact herror e
  | ok b => exact hok b rfl

theorem leaves_zoom {get : τ → σ} {set : σ → τ → τ} {x : Leaving σ α} {t : τ}
    {Q : Outcome α → τ → Prop} :
    (x.zoom get set).Leaves t Q ↔ x.Leaves (get t) fun r s => Q r (set s t) := .rfl

end Leaving

end RocksdbService
