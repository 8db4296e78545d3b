import RocksdbService.Theory.Outcome

/-! # Runs of a machine

A machine takes an input and a state to an output and a state, or faults. `run` feeds it a list of
inputs. A property that every step keeps holds at the end of a run (`run_invariant`, and with a
property of the outputs `run_outputs`); a run faults as the first of its steps that does
(`run_eq_error`, `run_fault`); and a machine that another one simulates step by step has the outputs of
that other one over whole runs (`run_simulates`). Of a machine that never faults, what one step
establishes holds as long as the later ones keep it (`trace_since`). A machine whose steps are events
that can happen or not runs by `List.foldlM`
(`foldlM_invariant`). -/

namespace RocksdbService

variable {ι ο σ ι' ο' τ : Type}

/-- The inputs are fed one after another and the outputs collected. -/
def run (step : ι → σ → Outcome (ο × σ)) : List ι → σ → Outcome (List ο × σ)
  | [], s => .ok ([], s)
  | i :: is, s => do
    let (o, s) ← step i s
    let (os, s) ← run step is s
    return (o :: os, s)

/-- The run of a machine that never faults. -/
def trace (step : ι → σ → ο × σ) : List ι → σ → List ο × σ
  | [], s => ([], s)
  | i :: is, s => ((step i s).1 :: (trace step is (step i s).2).1, (trace step is (step i s).2).2)

section
variable {step : ι → σ → Outcome (ο × σ)}

@[simp] theorem run_nil (s : σ) : run step [] s = .ok ([], s) := rfl

theorem run_cons_eq_ok {i : ι} {is : List ι} {s s' : σ} {os : List ο} :
    run step (i :: is) s = .ok (os, s') ↔
      ∃ o s₁ os', step i s = .ok (o, s₁) ∧ run step is s₁ = .ok (os', s') ∧ os = o :: os' := by
  constructor
  · intro h
    obtain ⟨⟨o, s₁⟩, h₁, h⟩ := Outcome.bind_eq_ok.mp h
    obtain ⟨⟨os', s₂⟩, h₂, h⟩ := Outcome.bind_eq_ok.mp h
    cases h
    exact ⟨o, s₁, os', h₁, h₂, rfl⟩
  · rintro ⟨o, s₁, os', h₁, h₂, rfl⟩
    simp [run, h₁, h₂]

theorem run_append (is js : List ι) (s : σ) :
    run step (is ++ js) s =
      (do let (os, s) ← run step is s
          let (os', s) ← run step js s
          return (os ++ os', s)) := by
  induction is generalizing s with
  | nil =>
    change run step js s = _
    cases h : run step js s <;> simp [h]
  | cons i is ih => simp [run, ih]

/-- What every step on an admitted input keeps, a run on admitted inputs keeps, and what every step says
of its output holds of all outputs. -/
theorem run_outputs {I : σ → Prop} {A : ι → Prop} {Q : ο → Prop}
    (hstep : ∀ {i s o s'}, A i → I s → step i s = .ok (o, s') → I s' ∧ Q o) {is : List ι} {s s' : σ}
    {os : List ο} (hA : ∀ i ∈ is, A i) (hI : I s) (h : run step is s = .ok (os, s')) :
    I s' ∧ ∀ o ∈ os, Q o := by
  induction is generalizing s os with
  | nil => cases h; exact ⟨hI, nofun⟩
  | cons i is ih =>
    obtain ⟨o, s₁, os', h₁, h₂, rfl⟩ := run_cons_eq_ok.mp h
    obtain ⟨hi, his⟩ := List.forall_mem_cons.mp hA
    obtain ⟨hI₁, ho⟩ := hstep hi hI h₁
    obtain ⟨hI', hos⟩ := ih his hI₁ h₂
    exact ⟨hI', List.forall_mem_cons.mpr ⟨ho, hos⟩⟩

theorem run_invariant {I : σ → Prop} {A : ι → Prop}
    (hstep : ∀ {i s o s'}, A i → I s → step i s = .ok (o, s') → I s') {is : List ι} {s s' : σ}
    {os : List ο} (hA : ∀ i ∈ is, A i) (hI : I s) (h : run step is s = .ok (os, s')) : I s' :=
  (run_outputs (Q := fun _ => True) (fun hi hI h => ⟨hstep hi hI h, trivial⟩) hA hI h).1

/-- A run faults as the first of its steps that does. -/
theorem run_eq_error {is : List ι} {s : σ} {f : Fault} :
    run step is s = .error f ↔ ∃ before i after os s₁, is = before ++ i :: after ∧
      run step before s = .ok (os, s₁) ∧ step i s₁ = .error f := by
  constructor
  · intro h
    induction is generalizing s with
    | nil => cases h
    | cons i is ih =>
      rcases Outcome.bind_eq_error.mp h with h | ⟨⟨o, s₁⟩, h₁, h⟩
      · exact ⟨[], i, is, [], s, rfl, rfl, h⟩
      rcases Outcome.bind_eq_error.mp h with h | ⟨_, -, h⟩
      · obtain ⟨before, j, after, os, s₂, rfl, hbefore, hj⟩ := ih h
        exact ⟨i :: before, j, after, o :: os, s₂, rfl,
          run_cons_eq_ok.mpr ⟨o, s₁, os, h₁, hbefore, rfl⟩, hj⟩
      · cases h
  · rintro ⟨before, i, after, os, s₁, rfl, hbefore, hi⟩
    simp [run_append, hbefore, run, hi]

/-- A run faults as one of its steps does, from a state where the invariant holds. -/
theorem run_fault {I : σ → Prop} {A : ι → Prop} {Q : Fault → Prop}
    (hstep : ∀ {i s o s'}, A i → I s → step i s = .ok (o, s') → I s')
    (hfault : ∀ {i s f}, A i → I s → step i s = .error f → Q f) {is : List ι} {s : σ} {f : Fault}
    (hA : ∀ i ∈ is, A i) (hI : I s) (h : run step is s = .error f) : Q f := by
  obtain ⟨before, i, after, os, s₁, rfl, hbefore, hi⟩ := run_eq_error.mp h
  obtain ⟨hA₁, hA₂⟩ := List.forall_mem_append.mp hA
  exact hfault (hA₂ i (List.mem_cons_self ..)) (run_invariant hstep hA₁ hI hbefore) hi

/-- If every step is matched by a step of `spec` between related states, so is every run. -/
theorem run_simulates {spec : ι' → τ → ο' × τ} {R : σ → τ → Prop} {A : ι → Prop}
    {input : ι → ο → ι'} {output : ο → ο'}
    (hstep : ∀ {i s t o s'}, A i → R s t → step i s = .ok (o, s') →
      (spec (input i o) t).1 = output o ∧ R s' (spec (input i o) t).2)
    {is : List ι} {s s' : σ} {t : τ} {os : List ο} (hA : ∀ i ∈ is, A i) (hR : R s t)
    (h : run step is s = .ok (os, s')) :
    (trace spec (List.zipWith input is os) t).1 = os.map output ∧
      R s' (trace spec (List.zipWith input is os) t).2 := by
  induction is generalizing s t os with
  | nil => cases h; exact ⟨rfl, hR⟩
  | cons i is ih =>
    obtain ⟨o, s₁, os', h₁, h₂, rfl⟩ := run_cons_eq_ok.mp h
    obtain ⟨hi, his⟩ := List.forall_mem_cons.mp hA
    obtain ⟨ho, hR₁⟩ := hstep hi hR h₁
    obtain ⟨hos, hR'⟩ := ih his hR₁ h₂
    exact ⟨by simp [trace, ho, hos], hR'⟩

end

/-- What every step says of its output holds of all outputs. -/
theorem trace_outputs {step : ι → σ → ο × σ} {Q : ο → Prop} (h : ∀ i s, Q (step i s).1)
    (is : List ι) (s : σ) : ∀ o ∈ (trace step is s).1, Q o := by
  induction is generalizing s with
  | nil => exact List.forall_mem_nil _
  | cons i is ih => exact List.forall_mem_cons.mpr ⟨h i s, ih _⟩

theorem trace_append (step : ι → σ → ο × σ) (is js : List ι) (s : σ) :
    trace step (is ++ js) s = ((trace step is s).1 ++ (trace step js (trace step is s).2).1,
      (trace step js (trace step is s).2).2) := by
  induction is generalizing s with
  | nil => rfl
  | cons i is ih => rw [List.cons_append, trace, ih]; rfl

/-- What every step keeps, a run keeps. -/
theorem trace_invariant {step : ι → σ → ο × σ} {I : σ → Prop} (hstep : ∀ {i s}, I s → I (step i s).2)
    (is : List ι) {s : σ} (hI : I s) : I (trace step is s).2 := by
  induction is generalizing s with
  | nil => exact hI
  | cons i is ih => exact ih (hstep hI)

theorem trace_getElem? (step : ι → σ → ο × σ) (is : List ι) (s : σ) (k : Nat) :
    (trace step is s).1[k]? = is[k]?.map fun i => (step i (trace step (is.take k) s).2).1 := by
  induction is generalizing s k with
  | nil => rfl
  | cons i is ih =>
    cases k with
    | zero => rfl
    | succ k => exact ih _ k

theorem trace_take_succ {step : ι → σ → ο × σ} {is : List ι} {s : σ} {k : Nat} {i : ι}
    (h : is[k]? = some i) :
    (trace step (is.take (k + 1)) s).2 = (step i (trace step (is.take k) s).2).2 := by
  induction is generalizing s k with
  | nil => cases h
  | cons j is ih =>
    cases k with
    | zero => cases h; rfl
    | succ k => exact ih h

/-- What one step establishes, and those after it keep, holds where the run has come to. -/
theorem trace_since {step : ι → σ → ο × σ} {I : σ → Prop} {is : List ι} {s : σ} {j k : Nat} {i : ι}
    (hj : is[j]? = some i) (hI : I (step i (trace step (is.take j) s).2).2) (hjk : j < k)
    (hk : k ≤ is.length)
    (hkeep : ∀ m i s, j < m → m < k → is[m]? = some i → I s → I (step i s).2) :
    I (trace step (is.take k) s).2 := by
  induction hjk with
  | refl =>
    rw [trace_take_succ hj]
    exact hI
  | @step m hm ih =>
    have hlt : m < is.length := hk
    rw [trace_take_succ (List.getElem?_eq_getElem hlt)]
    refine hkeep m _ _ hm (Nat.lt_succ_self m) (List.getElem?_eq_getElem hlt) (ih (Nat.le_of_lt hlt) ?_)
    exact fun m' i s h h' => hkeep m' i s h (Nat.lt_succ_of_lt h')

/-- What every event that can happen keeps, a run of events keeps. -/
theorem foldlM_invariant {next : σ → ι → Option σ} {I : σ → Prop}
    (hstep : ∀ {s e s'}, I s → next s e = some s' → I s') {es : List ι} {s s' : σ} (hI : I s)
    (h : es.foldlM next s = some s') : I s' := by
  induction es generalizing s with
  | nil =>
    cases h
    exact hI
  | cons e es ih =>
    rw [List.foldlM_cons] at h
    obtain ⟨s₁, h₁, h⟩ := Option.bind_eq_some_iff.mp h
    exact ih (hstep hI h₁) h

end RocksdbService
