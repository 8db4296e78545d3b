import Mathlib.Tactic.Common

/-! # Outcomes of C++ calls

A call either returns or ends in one of three ways that a caller does not survive without help:
an exception leaves it, an active `assert` fails, or its behaviour is undefined. A stateful call
is a function from the state before to an outcome that carries the state after. -/

namespace RocksdbService

/-- How a call ends when it does not return. -/
inductive Fault
  /-- An exception leaves the call. -/
  | exception (what : String)
  /-- An `assert` fails: the process is aborted. -/
  | assertion
  /-- The standard gives the step no meaning (a dead pointer is used, an access is out of range,
  an indeterminate value is read). -/
  | undefined
  deriving DecidableEq, Repr

/-- The outcome of a call that returns an `α`. -/
abbrev Outcome (α : Type) := Except Fault α

namespace Outcome

variable {α β : Type}

/-- The call returns. -/
def Returns (x : Outcome α) : Prop := ∃ a, x = .ok a

@[simp] theorem returns_ok (a : α) : Returns (.ok a) := ⟨a, rfl⟩

@[simp] theorem not_returns_error (f : Fault) : ¬ Returns (.error f : Outcome α) := nofun

section
variable {ε : Type}

@[simp] theorem ok_bind (a : α) (f : α → Except ε β) : (Except.ok a >>= f) = f a := rfl

@[simp] theorem error_bind (e : ε) (f : α → Except ε β) :
    ((.error e : Except ε α) >>= f) = .error e := rfl

@[simp] theorem pure_eq_ok (a : α) : (pure a : Except ε α) = .ok a := rfl

@[simp] theorem throw_eq_error (e : ε) : (throw e : Except ε α) = .error e := rfl

theorem bind_eq_ok {x : Except ε α} {f : α → Except ε β} {b : β} :
    (x >>= f) = .ok b ↔ ∃ a, x = .ok a ∧ f a = .ok b := by
  cases x with
  | error e => exact ⟨nofun, nofun⟩
  | ok a => exact ⟨fun h => ⟨a, rfl, h⟩, fun ⟨_, h, h'⟩ => by cases h; exact h'⟩

theorem bind_eq_error {x : Except ε α} {f : α → Except ε β} {e : ε} :
    (x >>= f) = .error e ↔ x = .error e ∨ ∃ a, x = .ok a ∧ f a = .error e := by
  cases x with
  | error e' => exact ⟨fun h => .inl (by cases h; rfl), fun h => by
      rcases h with h | ⟨_, h, _⟩ <;> cases h; rfl⟩
  | ok a => exact ⟨fun h => .inr ⟨a, rfl, h⟩, fun h => by
      rcases h with h | ⟨_, h, h'⟩ <;> cases h; exact h'⟩

theorem bind_congr_ok {x : Except ε α} {f g : α → Except ε β}
    (h : ∀ a, x = .ok a → f a = g a) : (x >>= f) = (x >>= g) := by
  cases x with
  | error e => rfl
  | ok a => exact h a rfl

/-- Each result of a `mapM` comes from an element. -/
theorem mem_of_mapM {f : α → Except ε β} {xs : List α} {ys : List β} (h : xs.mapM f = .ok ys)
    {y : β} (hy : y ∈ ys) : ∃ x ∈ xs, f x = .ok y := by
  induction xs generalizing ys with
  | nil => cases h; cases hy
  | cons x xs ih =>
    rw [List.mapM_cons] at h
    obtain ⟨y', hx, h⟩ := bind_eq_ok.mp h
    obtain ⟨ys', hxs, h⟩ := bind_eq_ok.mp h
    cases h
    rcases List.mem_cons.mp hy with rfl | hy
    · exact ⟨x, List.mem_cons_self, hx⟩
    · obtain ⟨x', hx', hf⟩ := ih hxs hy
      exact ⟨x', List.mem_cons_of_mem _ hx', hf⟩

theorem getElem?_mapM {f : α → Except ε β} {xs : List α} {ys : List β} (h : xs.mapM f = .ok ys)
    {i : Nat} {x : α} (hx : xs[i]? = some x) : ∃ y, ys[i]? = some y ∧ f x = .ok y := by
  induction xs generalizing ys i with
  | nil => cases hx
  | cons x' xs ih =>
    rw [List.mapM_cons] at h
    obtain ⟨y', hx', h⟩ := bind_eq_ok.mp h
    obtain ⟨ys', hxs, h⟩ := bind_eq_ok.mp h
    cases h
    cases i with
    | zero => cases hx; exact ⟨y', rfl, hx'⟩
    | succ i => exact ih hxs hx

end

theorem returns_bind {x : Outcome α} {f : α → Outcome β} :
    Returns (x >>= f) ↔ ∃ a, x = .ok a ∧ Returns (f a) := by
  simp only [Returns, bind_eq_ok]
  exact ⟨fun ⟨b, a, h, h'⟩ => ⟨a, h, b, h'⟩, fun ⟨a, h, b, h'⟩ => ⟨b, a, h, h'⟩⟩

end Outcome

end RocksdbService
