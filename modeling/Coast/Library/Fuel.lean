import Mathlib.Data.List.Basic
import Mathlib.Logic.Relation

/-!
# Computations with a bound

A function that need not return takes a bound.  It returns when every bound
that is large enough gives the same result, and does not return when no bound
gives one.
-/

namespace Coast

namespace Fuel

variable {α β : Type}

/-- The result, which every bound that is large enough gives. -/
structure Settles (f : Nat → Option α) (a : α) : Prop where
  only : ∀ fuel result, f fuel = some result → result = a
  enough : ∃ bound, ∀ fuel, bound ≤ fuel → f fuel = some a

def Never (f : Nat → Option α) : Prop := ∀ fuel, f fuel = none

/-- Bounds that are large enough give the same for two functions. -/
def Agree (f g : Nat → Option α) : Prop := ∃ bound, ∀ fuel, bound ≤ fuel → f fuel = g fuel

namespace Settles

theorem const (a : α) : Settles (fun _ => some a) a :=
  ⟨fun _ _ same => (Option.some.inj same).symm, 0, fun _ _ => rfl⟩

variable {f : Nat → Option α} {a : α}

theorem congr {g : Nat → Option α} (settles : Settles f a)
    (same : ∀ fuel, g fuel = f fuel) : Settles g a := by
  rcases settles with ⟨only, bound, result⟩
  refine ⟨fun fuel r returns => ?_, bound, fun fuel large => ?_⟩
  · exact only fuel r ((same fuel).symm.trans returns)
  · exact (same fuel).trans (result fuel large)

theorem succ {g : Nat → Option α} (settles : Settles g a)
    (zero : f 0 = none) (unroll : ∀ fuel, f (fuel + 1) = g fuel) :
    Settles f a := by
  rcases settles with ⟨only, bound, result⟩
  refine ⟨fun fuel r returns => ?_, bound + 1, fun fuel large => ?_⟩
  · cases fuel with
    | zero => cases zero.symm.trans returns
    | succ fuel => exact only fuel r ((unroll fuel).symm.trans returns)
  · obtain ⟨smaller, rfl⟩ := Nat.exists_eq_add_of_le' large
    exact (unroll _).trans (result _ (Nat.le_add_left bound smaller))

theorem bind {g : Nat → α → Option β} {b : β}
    (first : Settles f a) (rest : Settles (fun fuel => g fuel a) b) :
    Settles (fun fuel => (f fuel).bind (g fuel)) b := by
  rcases first with ⟨firstOnly, firstBound, first⟩
  rcases rest with ⟨restOnly, restBound, rest⟩
  refine ⟨fun fuel r returns => ?_, firstBound + restBound, fun fuel large => ?_⟩
  · rcases Option.bind_eq_some_iff.mp returns with ⟨x, here, later⟩
    rw [firstOnly fuel x here] at later
    exact restOnly fuel r later
  · show (f fuel).bind (g fuel) = some b
    rw [first fuel (Nat.le_trans (Nat.le_add_right _ _) large)]
    exact rest fuel (Nat.le_trans (Nat.le_add_left _ _) large)

theorem map (g : α → β) (settles : Settles f a) : Settles (fun fuel => (f fuel).map g) (g a) := by
  rcases settles with ⟨only, bound, result⟩
  refine ⟨fun fuel r returns => ?_, bound, fun fuel large => ?_⟩
  · rcases Option.map_eq_some_iff.mp returns with ⟨x, here, rfl⟩
    rw [only fuel x here]
  · show (f fuel).map g = some (g a)
    rw [result fuel large]
    rfl

theorem unique {b : α} (one : Settles f a) (other : Settles f b) : a = b := by
  rcases one.enough with ⟨bound, result⟩
  exact other.only bound a (result bound (Nat.le_refl _))

theorem returns (settles : Settles f a) : ∃ fuel, f fuel = some a := by
  rcases settles.enough with ⟨bound, result⟩
  exact ⟨bound, result bound (Nat.le_refl _)⟩

end Settles

/-- A larger bound gives the same: then a result is the result. -/
theorem settles_of_step {f : Nat → Option α} {fuel : Nat} {a : α}
    (step : ∀ fuel b, f fuel = some b → f (fuel + 1) = some b)
    (result : f fuel = some a) : Settles f a := by
  have later : ∀ {fuel b}, f fuel = some b → ∀ more, f (fuel + more) = some b := by
    intro fuel b result more
    induction more with
    | zero => exact result
    | succ more ih => exact step _ _ ih
  refine ⟨fun other b same => ?_, fuel, fun other large => ?_⟩
  · have here := later result other
    rw [Nat.add_comm, later same fuel] at here
    exact Option.some.inj here
  · obtain ⟨more, rfl⟩ := Nat.exists_eq_add_of_le large
    exact later result more

namespace Never

variable {f : Nat → Option α}

theorem succ {g : Nat → Option α} (never : Never g)
    (zero : f 0 = none) (unroll : ∀ fuel, f (fuel + 1) = g fuel) :
    Never f := by
  intro fuel
  cases fuel with
  | zero => exact zero
  | succ fuel => exact (unroll fuel).trans (never fuel)

theorem bind (never : Never f)
    (g : Nat → α → Option β) : Never (fun fuel => (f fuel).bind (g fuel)) := by
  intro fuel
  show (f fuel).bind (g fuel) = none
  rw [never fuel]
  rfl

theorem map (never : Never f) (g : α → β) : Never (fun fuel => (f fuel).map g) := by
  intro fuel
  show (f fuel).map g = none
  rw [never fuel]
  rfl

theorem not_settles (never : Never f) (a : α) : ¬ Settles f a := by
  intro settles
  rcases settles.returns with ⟨fuel, result⟩
  cases (never fuel).symm.trans result

theorem after {g : Nat → α → Option β} {a : α}
    (first : Settles f a) (never : Never (fun fuel => g fuel a)) :
    Never (fun fuel => (f fuel).bind (g fuel)) := by
  intro fuel
  show (f fuel).bind (g fuel) = none
  cases here : f fuel with
  | none => rfl
  | some x =>
    rw [first.only fuel x here]
    exact never fuel

end Never

/-! ## Walks along a chain -/

def walk (next : α → Option α) : Nat → α → Option α
  | 0, _ => none
  | fuel + 1, a =>
    match next a with
    | none => some a
    | some b => walk next fuel b

variable {next : α → Option α} {a b c : α}

/-- Steps from one state to another. -/
abbrev Leads (next : α → Option α) : α → α → Prop :=
  Relation.ReflTransGen (fun a b => next a = some b)

theorem Leads.single (goesOn : next a = some b) : Leads next a b :=
  Relation.ReflTransGen.single goesOn

theorem walk_settles (leads : Leads next a b) (ends : next b = none) :
    Settles (fun fuel => walk next fuel a) b := by
  induction leads using Relation.ReflTransGen.head_induction_on with
  | refl =>
    refine (Settles.const b).succ rfl fun fuel => ?_
    rw [walk, ends]
  | head goesOn _ ih =>
    refine ih.succ rfl fun fuel => ?_
    rw [walk, goesOn]

theorem walk_never (leads : Leads next a b) (goesOn : next b = some c)
    (back : Leads next c b) : Never (fun fuel => walk next fuel a) := by
  intro fuel
  induction fuel generalizing a with
  | zero => rfl
  | succ fuel ih =>
    rcases Relation.ReflTransGen.cases_head leads with rfl | ⟨d, step, rest⟩
    · simp only [walk, goesOn]
      exact ih back
    · simp only [walk, step]
      exact ih rest

end Fuel

/-!
## Steps that may fail

Following steps one after the other, where every step may fail, and
comparing two ways to take a step.
-/

namespace PartialSteps

variable {σ κ : Type}

def follow (step : σ → κ → Option σ) : σ → List κ → Option σ
  | c, [] => some c
  | c, s :: steps => (step c s).bind fun c => follow step c steps

variable {step more : σ → κ → Option σ}

/-- Where `more` goes on although `step` has failed, and reaches the end. -/
def GoesOn (step more : σ → κ → Option σ) (c : σ) (steps : List κ) : Prop :=
  ∃ before s after there next last, steps = before ++ s :: after ∧
    follow step c before = some there ∧ step there s = none ∧
      more there s = some next ∧ follow more next after = some last

theorem goesOn_cons {c : σ} {s : κ} {steps : List κ} :
    GoesOn step more c (s :: steps) ↔
      (step c s = none ∧ ∃ next last, more c s = some next ∧ follow more next steps = some last) ∨
      ∃ next, step c s = some next ∧ GoesOn step more next steps := by
  constructor
  · rintro ⟨before, s', after, there, next, last, same, path, stops, goes, ends⟩
    cases before with
    | nil =>
      cases same
      cases path
      exact Or.inl ⟨stops, next, last, goes, ends⟩
    | cons first before =>
      cases same
      obtain ⟨middle, stepped, path⟩ := Option.bind_eq_some_iff.mp path
      exact Or.inr ⟨middle, stepped, before, s', after, there, next, last,
        rfl, path, stops, goes, ends⟩
  · rintro (⟨stops, next, last, goes, ends⟩ | ⟨middle, stepped, before, s',
      after, there, next, last, rfl, path, stops, goes, ends⟩)
    · exact ⟨[], s, steps, c, next, last, rfl, rfl, stops, goes, ends⟩
    · refine ⟨s :: before, s', after, there, next, last, rfl, ?_, stops, goes, ends⟩
      rw [follow, stepped]
      exact path

/-- Two ways of which one extends the other differ exactly there. -/
theorem follow_eq_iff (step more : σ → κ → Option σ)
    (extends_ : ∀ c s next, step c s = some next → more c s = some next) (c : σ) (steps : List κ) :
    follow more c steps = follow step c steps ↔ ¬ GoesOn step more c steps := by
  induction steps generalizing c with
  | nil =>
    refine ⟨fun _ => ?_, fun _ => rfl⟩
    rintro ⟨before, s, after, there, next, last, same, -⟩
    cases before <;> cases same
  | cons s steps ih =>
    rw [goesOn_cons, follow, follow]
    cases stepped : step c s with
    | some next =>
      rw [extends_ c s next stepped, Option.bind_some, Option.bind_some, ih next]
      constructor
      · rintro never (⟨stops, -⟩ | ⟨other, same, goes⟩)
        · cases stops
        · cases same
          exact never goes
      · intro never goes
        exact never (Or.inr ⟨next, rfl, goes⟩)
    | none =>
      rw [Option.bind_none]
      constructor
      · rintro fails (⟨-, next, last, goes, ends⟩ | ⟨next, same, -⟩)
        · rw [goes, Option.bind_some, ends] at fails
          cases fails
        · cases same
      · intro never
        rw [Option.bind_eq_none_iff]
        intro next goes
        cases ends : follow more next steps with
        | none => rfl
        | some last =>
          exact absurd (Or.inl ⟨rfl, next, last, goes, ends⟩) never

end PartialSteps

end Coast
