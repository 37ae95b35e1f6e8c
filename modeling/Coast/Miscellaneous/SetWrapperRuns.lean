import Coast.Library.Runs
import Coast.Miscellaneous.SetWrapper

/-!
# Sequences of calls on set wrappers

The objects stand for mathematical sets.  They follow these sets exactly as
long as every call meets its condition.
-/

namespace Coast

open Runs

/-- A call on one of several sets. -/
inductive SetWrapperCall (ι α : Type) where
  | addItem (this : ι) (aItem : α)
  | deleteItem (this : ι) (aItem : α)
  | replaceItem (this : ι) (aItem : α)
  | clear (this : ι)
  | findItemRange (this : ι) (aItemMin aItemMax : α)
  | deleteItemRange (this : ι) (aItemMin aItemMax : α)
  | reduceToRange (this : ι) (aItemMin aItemMax : α)
  | assign (this other : ι)
  deriving DecidableEq, Repr

namespace SetWrapperCall

variable {ι α : Type}

/-- What the calls mean for mathematical sets. -/
def apply [DecidableEq ι] [LE α] (sets : ι → Set α) : SetWrapperCall ι α → ι → Set α
  | .addItem this aItem | .replaceItem this aItem =>
    Function.update sets this (insert aItem (sets this))
  | .deleteItem this aItem =>
    Function.update sets this (sets this \ {aItem})
  | .clear this => Function.update sets this ∅
  | .findItemRange .. => sets
  | .deleteItemRange this aItemMin aItemMax =>
    Function.update sets this { x | x ∈ sets this ∧ ¬ (aItemMin ≤ x ∧ x ≤ aItemMax) }
  | .reduceToRange this aItemMin aItemMax =>
    Function.update sets this { x | x ∈ sets this ∧ aItemMin ≤ x ∧ x ≤ aItemMax }
  | .assign this other => Function.update sets this (sets other)

end SetWrapperCall

namespace SetWrapper

variable {ι α : Type} [DecidableEq ι] [LinearOrder α]

/-- The objects after the call, where it does not leave the list. -/
def step (less : α → α → Bool) (objects : ι → SetWrapper α) :
    SetWrapperCall ι α → Option (ι → SetWrapper α)
  | .addItem this aItem =>
    some (Function.update objects this ((objects this).addItem aItem).2)
  | .deleteItem this aItem =>
    some (Function.update objects this ((objects this).deleteItem aItem).2)
  | .replaceItem this aItem =>
    some (Function.update objects this ((objects this).replaceItem aItem).2)
  | .clear this =>
    some (Function.update objects this (objects this).clear)
  | .findItemRange this aItemMin aItemMax =>
    ((objects this).findItemRange less aItemMin aItemMax).map fun _ => objects
  | .deleteItemRange this aItemMin aItemMax =>
    ((objects this).deleteItemRange less aItemMin aItemMax).map
      fun answer => Function.update objects this answer.2
  | .reduceToRange this aItemMin aItemMax =>
    ((objects this).reduceToRange aItemMin aItemMax).map
      fun answer => Function.update objects this answer.2
  | .assign this other =>
    some (Function.update objects this ((objects this).assign (objects other)))

def sets (objects : ι → SetWrapper α) (i : ι) : Set α := (objects i).contents

def Reports (less : α → α → Bool) (objects : ι → SetWrapper α) : SetWrapperCall ι α → Prop
  | .findItemRange this aItemMin aItemMax =>
    (objects this).ReportsRange less aItemMin aItemMax
  | _ => True

/-- All calls are defined, all searches tell the truth, and the contents are
always those of the mathematical sets. -/
def Follows (less : α → α → Bool) (objects : ι → SetWrapper α)
    (abstract : ι → Set α) : List (SetWrapperCall ι α) → Prop
  | [] => sets objects = abstract
  | call :: calls => sets objects = abstract ∧ Reports less objects call ∧
      ∃ after, step less objects call = some after ∧ Follows less after (call.apply abstract) calls

/-- The calls whose range is taken as the set means it. -/
def Meets (less : α → α → Bool) (objects : ι → SetWrapper α) : SetWrapperCall ι α → Prop
  | .findItemRange this aItemMin aItemMax =>
    FindMeets less (objects this).contents aItemMin aItemMax
  | .deleteItemRange this aItemMin aItemMax =>
    DeleteMeets less (objects this).contents aItemMin aItemMax
  | .reduceToRange this aItemMin aItemMax =>
    ReduceMeets (objects this).contents aItemMin aItemMax
  | .assign this other =>
    (objects this).contents ⊆ (objects other).contents
  | _ => True

variable {less : α → α → Bool} {objects : ι → SetWrapper α}

theorem sets_update (this : ι) (after : SetWrapper α) :
    sets (Function.update objects this after) =
      Function.update (sets objects) this after.contents := by
  funext i
  by_cases same : i = this
  · subst same
    simp only [sets, Function.update_self]
  · simp only [sets, Function.update_of_ne same]

theorem update_sets_iff (this : ι) (items : Set α) (after : SetWrapper α) :
    sets (Function.update objects this after) = Function.update (sets objects) this items ↔
      after.contents = items := by
  rw [sets_update]
  exact ⟨fun same => Function.update_injective _ this same, fun same => by
    rw [same]⟩

def Does (less : α → α → Bool) (objects : ι → SetWrapper α) (call : SetWrapperCall ι α) : Prop :=
  Reports less objects call ∧
    ∃ after, step less objects call = some after ∧ sets after = call.apply (sets objects)

theorem exists_update_iff {this : ι} {items : Set α} {answer : Option (Bool × SetWrapper α)} :
    (∃ after, answer.map (fun answer => Function.update objects this
        answer.2) = some after ∧
      sets after = Function.update (sets objects) this items) ↔
    ∃ given, answer = some given ∧ given.2.contents = items := by
  constructor
  · rintro ⟨after, steps, same⟩
    rcases Option.map_eq_some_iff.mp steps with ⟨given, answers, rfl⟩
    exact ⟨given, answers, (update_sets_iff this items _).mp same⟩
  · rintro ⟨given, rfl, same⟩
    exact ⟨_, rfl, (update_sets_iff this items _).mpr same⟩

theorem exists_some_iff {this : ι} {items : Set α} {object : SetWrapper α} :
    (∃ after, some (Function.update objects this object) = some after ∧
      sets after = Function.update (sets objects) this items) ↔
    object.contents = items := by
  constructor
  · rintro ⟨after, steps, same⟩
    cases steps
    exact (update_sets_iff this items object).mp same
  · intro same
    exact ⟨_, rfl, (update_sets_iff this items object).mpr same⟩

theorem does_iff (call : SetWrapperCall ι α) :
    Does less objects call ↔ Meets less objects call := by
  cases call with
  | addItem this aItem =>
    exact iff_of_true ⟨trivial, exists_some_iff.mpr (contents_addItem _ aItem)⟩ trivial
  | deleteItem this aItem =>
    exact iff_of_true ⟨trivial, exists_some_iff.mpr (contents_deleteItem _ aItem)⟩ trivial
  | replaceItem this aItem =>
    exact iff_of_true ⟨trivial, exists_some_iff.mpr (contents_replaceItem _ aItem)⟩ trivial
  | clear this =>
    exact iff_of_true ⟨trivial, exists_some_iff.mpr (contents_clear _)⟩ trivial
  | findItemRange this aItemMin aItemMax =>
    apply Iff.trans _ (reportsRange_iff (objects this))
    refine ⟨And.left, fun reports => ⟨reports, objects, ?_, rfl⟩⟩
    rcases reports with ⟨answer, finds, -⟩
    exact Option.map_eq_some_iff.mpr ⟨answer, finds, rfl⟩
  | deleteItemRange this aItemMin aItemMax =>
    apply Iff.trans _ (deletesRange_iff (objects this))
    exact (iff_of_eq (true_and _)).trans exists_update_iff
  | reduceToRange this aItemMin aItemMax =>
    apply Iff.trans _ (reducesToRange_iff (objects this))
    exact (iff_of_eq (true_and _)).trans exists_update_iff
  | assign this other =>
    apply (iff_of_eq (true_and _)).trans
    apply exists_some_iff.trans
    rw [contents_assign]
    exact Set.union_eq_right

/-- The objects follow the mathematical sets exactly as long as every call
meets its condition. -/
theorem follows_iff (less : α → α → Bool) (objects : ι → SetWrapper α)
    (calls : List (SetWrapperCall ι α)) :
    Follows less objects (sets objects) calls ↔ Along (step less) (Meets less) objects calls := by
  induction calls generalizing objects with
  | nil => exact iff_of_true rfl trivial
  | cons call calls ih =>
    constructor
    · rintro ⟨-, reports, after, steps, follows⟩
      have same : sets after = call.apply (sets objects) := by
        cases calls with
        | nil => exact follows
        | cons => exact follows.1
      rw [← same] at follows
      exact .cons ((does_iff call).mp ⟨reports, after, steps, same⟩) steps ((ih after).mp follows)
    · rintro ⟨meets, rest⟩
      rcases (does_iff call).mpr meets with ⟨reports, after, steps, same⟩
      refine ⟨rfl, reports, after, steps, ?_⟩
      rw [← same]
      exact (ih after).mpr (rest after steps)

/-- The least item that is to be kept leaves the list. -/
theorem not_follows :
    ¬ (∀ calls : List (SetWrapperCall (Fin 2) Nat),
      Follows (fun x y => decide (x < y)) (fun _ => create) (sets fun _ => create) calls) := by
  intro follows
  rcases follows [.addItem 0 3, .addItem 0 5, .reduceToRange 0 3 5]
    with ⟨-, -, _, first, -, -, _, second, -, -, _, third, same⟩
  cases first
  cases second
  cases third
  have kept := Set.ext_iff.mp (congrFun same 0) 3
  have member := kept.mpr ⟨.inr (.inl rfl), Nat.le_refl 3, by decide⟩
  have left : (3 : Nat) ∉ ([5] : List Nat) := by decide
  exact left member

end SetWrapper

end Coast
