import Mathlib.Algebra.Order.BigOperators.Group.List
import Mathlib.Algebra.Order.Group.Nat
import Mathlib.Algebra.Ring.Nat

/-!
# Walks in a tree of directories

A walk goes down to a named directory, up, or stays.  Going up from the top
stays at the top.
-/

namespace Coast.Paths

variable {τ : Type}

/-- One component of a path. -/
inductive Move (τ : Type) where
  | stay
  | up
  | down (name : τ)
  deriving DecidableEq, Repr

def follow (here : List τ) : List (Move τ) → List τ
  | [] => here
  | .stay :: moves => follow here moves
  | .up :: moves => follow here.dropLast moves
  | .down name :: moves => follow (here ++ [name]) moves

/-- What a walk comes to: the levels above its start that it goes up to, and
the names that it goes down from there. -/
structure Walk (τ : Type) where
  up : Nat
  names : List τ
  deriving DecidableEq, Repr

namespace Walk

def add (this : Walk τ) : Move τ → Walk τ
  | .stay => this
  | .up =>
    if this.names.isEmpty then { this with up := this.up + 1 }
    else { this with names := this.names.dropLast }
  | .down name => { this with names := this.names ++ [name] }

def ofMoves (moves : List (Move τ)) : Walk τ := moves.foldl add ⟨0, []⟩

def target (this : Walk τ) (here : List τ) : List τ :=
  here.take (here.length - this.up) ++ this.names

theorem target_up (this : Walk τ) (here : List τ) :
    (this.add .up).target here = (this.target here).dropLast := by
  cases names : this.names with
  | nil =>
    simp only [add, target, names, List.isEmpty_nil, if_true, List.append_nil]
    rw [List.dropLast_eq_take, List.take_take, List.length_take]
    congr 1
    omega
  | cons name rest =>
    have nonempty : name :: rest ≠ [] := List.cons_ne_nil name rest
    simp only [add, target, names, List.isEmpty_cons, Bool.false_eq_true, if_false]
    rw [List.dropLast_append_of_ne_nil nonempty]

end Walk

theorem follow_append (here : List τ) (first second : List (Move τ)) :
    follow here (first ++ second) = follow (follow here first) second := by
  induction first generalizing here with
  | nil => rfl
  | cons move first ih => cases move <;> exact ih _

theorem follow_names (here names : List τ) : follow here (names.map .down) = here ++ names := by
  induction names generalizing here with
  | nil => exact (List.append_nil here).symm
  | cons name names ih =>
    rw [List.map_cons, follow, ih, List.append_assoc]
    rfl

theorem follow_eq_target (here : List τ) (moves : List (Move τ)) :
    follow here moves = (Walk.ofMoves moves).target here := by
  have general : ∀ walk : Walk τ, follow (walk.target here) moves =
      (moves.foldl Walk.add walk).target here := by
    induction moves with
    | nil => exact fun _ => rfl
    | cons move moves ih =>
      intro walk
      rw [List.foldl_cons, ← ih]
      cases move with
      | stay => rfl
      | up =>
        rw [Walk.target_up]
        rfl
      | down name =>
        simp only [follow, Walk.add, Walk.target, List.append_assoc]
  have start := general ⟨0, []⟩
  rwa [Walk.target, Nat.sub_zero, List.take_length, List.append_nil] at start

/-- A walk ends at or below its start when it goes down again by the names
that it went up. -/
theorem prefix_follow_iff (here : List τ) (moves : List (Move τ)) :
    here <+: follow here moves ↔
      here.drop (here.length - (Walk.ofMoves moves).up) <+: (Walk.ofMoves moves).names := by
  rw [follow_eq_target, Walk.target]
  have split := List.take_append_drop (here.length - (Walk.ofMoves moves).up) here
  constructor
  · intro below
    nth_rewrite 1 [← split] at below
    exact (List.prefix_append_right_inj _).mp below
  · intro below
    nth_rewrite 1 [← split]
    exact (List.prefix_append_right_inj _).mpr below

section

variable {α : Type} {size : τ → Nat} {cost : α → Nat} {move : α → Move τ}

/-- The names that are reached are no larger than the steps, and as large only
when all steps go down. -/
theorem size_follow (down : ∀ a name, move a = .down name → size name = cost a)
    (positive : ∀ a, (∀ name, move a ≠ .down name) → 0 < cost a) (here : List τ) (steps : List α) :
    ((follow here (steps.map move)).map size).sum ≤ (here.map size).sum + (steps.map cost).sum ∧
      (((follow here (steps.map move)).map size).sum = (here.map size).sum + (steps.map cost).sum →
        ∀ a ∈ steps, ∃ name, move a = .down name) := by
  induction steps generalizing here with
  | nil => exact ⟨Nat.le_refl _, fun _ _ member => nomatch member⟩
  | cons a steps ih =>
    rw [List.map_cons, List.map_cons, List.sum_cons]
    cases moves : move a with
    | stay =>
      have pays := positive a (by rw [moves]; nofun)
      rcases ih here with ⟨le, _⟩
      simp only [follow]
      refine ⟨by omega, fun equal => ?_⟩
      omega
    | up =>
      have pays := positive a (by rw [moves]; nofun)
      rcases ih here.dropLast with ⟨le, _⟩
      have fewer : (here.dropLast.map size).sum ≤ (here.map size).sum := by
        rw [List.map_dropLast]
        exact (List.dropLast_sublist _).sum_le_sum fun _ _ =>
          Nat.zero_le _
      simp only [follow]
      refine ⟨by omega, fun equal => ?_⟩
      omega
    | down name =>
      have same := down a name moves
      rcases ih (here ++ [name]) with ⟨le, all⟩
      have more : ((here ++ [name]).map size).sum = (here.map size).sum + cost a := by
        rw [List.map_append, List.sum_append, List.map_singleton, List.sum_singleton, same]
      simp only [follow]
      refine ⟨by omega, fun equal b member => ?_⟩
      rcases List.mem_cons.mp member with here' | later
      · rw [here']
        exact ⟨name, moves⟩
      · exact all (by omega) b later

end

end Coast.Paths
