import Mathlib.Logic.Function.Basic

/-!
# Runs of a step function

Actions that are not enabled have no step.  An invariant that the steps keep
under a condition holds after every run whose actions meet the condition.
-/

namespace Coast.Runs

variable {σ α : Type}

def run (step : σ → α → Option σ) (s : σ) : List α → Option σ
  | [] => some s
  | a :: actions => do
      let after ← step s a
      run step after actions

/-- Every action meets the condition in the state that it finds. -/
def Along (step : σ → α → Option σ) (Meets : σ → α → Prop) (s : σ) : List α → Prop
  | [] => True
  | a :: actions => Meets s a ∧ ∀ after, step s a = some after → Along step Meets after actions

def Always (step : σ → α → Option σ) (Good : σ → Prop) (s : σ) : List α → Prop
  | [] => Good s
  | a :: actions => Good s ∧ ∀ after, step s a = some after → Always step Good after actions

def Throughout (step : σ → α → Option σ) (Good : σ → α → σ → Prop) (s : σ) : List α → Prop
  | [] => True
  | a :: actions => ∀ after, step s a = some after →
      Good s a after ∧ Throughout step Good after actions

variable {step : σ → α → Option σ} {Meets : σ → α → Prop} {Inv Good : σ → Prop}

variable {actions : List α}

theorem run_cons {s last : σ} {a : α} (runs : run step s (a :: actions) = some last) :
    ∃ after, step s a = some after ∧ run step after actions = some last :=
  Option.bind_eq_some_iff.mp runs

theorem run_invariant (keeps : ∀ s a after, Inv s → Meets s a → step s a = some after → Inv after)
    {s last : σ} (start : Inv s)
    (along : Along step Meets s actions) (runs : run step s actions = some last) : Inv last := by
  induction actions generalizing s with
  | nil =>
    cases runs
    exact start
  | cons a actions ih =>
    rcases run_cons runs with ⟨after, steps, rest⟩
    have next := keeps s a after start along.1 steps
    exact ih next (along.2 after steps) rest

theorem Along.cons {s after : σ} {a : α}
    (meets : Meets s a) (steps : step s a = some after) (rest : Along step Meets after actions) :
    Along step Meets s (a :: actions) := by
  refine ⟨meets, ?_⟩
  intro other alsoSteps
  rw [steps] at alsoSteps
  cases alsoSteps
  exact rest

/-- A condition that the actions meet in any state. -/
theorem Along.of_mem (meets : ∀ a ∈ actions, ∀ s, Meets s a) (s : σ) :
    Along step Meets s actions := by
  induction actions generalizing s with
  | nil => trivial
  | cons a actions ih =>
    exact ⟨meets a (.head actions) s, fun after _ => ih (fun b mem => meets b (.tail a mem)) after⟩

theorem run_invariant_always (keeps : ∀ s a after, Inv s → step s a = some after → Inv after)
    {s last : σ} (start : Inv s) (runs : run step s actions = some last) : Inv last := by
  induction actions generalizing s with
  | nil =>
    cases runs
    exact start
  | cons a actions ih =>
    rcases run_cons runs with ⟨after, steps, rest⟩
    exact ih (keeps s a after start steps) rest

/-- What the invariant makes of the steps that meet the condition. -/
theorem throughout_of_along {Does : σ → α → σ → Prop}
    (keeps : ∀ s a after, Inv s → Meets s a → step s a = some after → Inv after ∧ Does s a after)
    {s : σ} (start : Inv s) (along : Along step Meets s actions) :
    Throughout step Does s actions := by
  induction actions generalizing s with
  | nil => trivial
  | cons a actions ih =>
    intro after steps
    rcases keeps s a after start along.1 steps with ⟨inv, does⟩
    exact ⟨does, ih inv (along.2 after steps)⟩

theorem Always.head {s : σ} (always : Always step Good s actions) : Good s := by
  cases actions with
  | nil => exact always
  | cons a rest => exact always.1

theorem Always.last {s last : σ} (always : Always step Good s actions)
    (runs : run step s actions = some last) : Good last := by
  induction actions generalizing s with
  | nil =>
    cases runs
    exact always
  | cons a actions ih =>
    rcases run_cons runs with ⟨after, steps, rest⟩
    exact ih (always.2 after steps) rest

/-- Where the invariant makes states good and an action that misses the
condition leads to a state that is not, the condition is exact. -/
theorem always_iff_along
    (keeps : ∀ s a after, Inv s → Meets s a → step s a = some after → Inv after)
    (good : ∀ s, Inv s → Good s)
    (breaks : ∀ s a after, Inv s → ¬ Meets s a → step s a = some after → ¬ Good after)
    {s last : σ} (start : Inv s) (runs : run step s actions = some last) :
    Always step Good s actions ↔ Along step Meets s actions := by
  induction actions generalizing s with
  | nil => exact iff_of_true (good s start) trivial
  | cons a actions ih =>
    rcases run_cons runs with ⟨after, steps, rest⟩
    constructor
    · intro always
      have next := always.2 after steps
      have meets : Meets s a := by
        by_contra misses
        exact breaks s a after start misses steps next.head
      exact .cons meets steps ((ih (keeps s a after start meets steps) rest).mp next)
    · intro along
      refine ⟨good s start, ?_⟩
      intro other alsoSteps
      have inv := keeps s a other start along.1 alsoSteps
      rw [steps] at alsoSteps
      cases alsoSteps
      exact (ih inv rest).mpr (along.2 after steps)

end Coast.Runs
