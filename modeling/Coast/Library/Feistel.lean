import Mathlib.Data.List.Basic

/-!
# Feistel networks

A network over a type of half blocks with a combining operation.  All that
the operation has to satisfy is that combining with the same value twice
changes nothing, as exclusive or does.
-/

namespace Feistel

variable {α κ : Type*}

/-- A half block combined twice with the same value is itself again. -/
def Cancels (combine : α → α → α) : Prop := ∀ a b, combine (combine a b) b = a

section Network

variable (combine : α → α → α) (f : κ → α → α)

/-- One round.  The first half is the one that the previous round changed. -/
def step (key : κ) (block : α × α) : α × α := (combine block.2 (f key block.1), block.1)

def run (keys : List κ) (block : α × α) : α × α :=
  keys.foldl (fun current key => step combine f key current) block

@[simp]
theorem run_nil (block : α × α) : run combine f [] block = block := rfl

@[simp]
theorem run_cons (key : κ) (keys : List κ) (block : α × α) :
    run combine f (key :: keys) block = run combine f keys (step combine f key block) := rfl

theorem run_append (first second : List κ) (block : α × α) :
    run combine f (first ++ second) block = run combine f second (run combine f first block) := by
  unfold run
  exact List.foldl_append

/-- A round undoes itself when the halves are exchanged around it. -/
theorem step_swap_step (cancels : Cancels combine) (key : κ) (block : α × α) :
    step combine f key (step combine f key block).swap = block.swap := by
  unfold step
  rw [Prod.swap_prod_mk]
  simp only
  rw [cancels]
  rfl

/-- The whole network undoes itself under the reversed key schedule. -/
theorem run_reverse_swap_run (cancels : Cancels combine) (keys : List κ) (block : α × α) :
    run combine f keys.reverse (run combine f keys block).swap = block.swap := by
  induction keys generalizing block with
  | nil => rfl
  | cons key rest ih =>
    rw [List.reverse_cons, run_append, run_cons combine f key rest block, ih, run_cons, run_nil,
      step_swap_step combine f cancels]

end Network

section Projection

variable {β : Type*}
  {combine : α → α → α} {f : κ → α → α}
  {combine' : β → β → β} {f' : κ → β → β} {view : α → β}

/-- A view that commutes with the combining operation and the round function
commutes with the network. -/
theorem run_map (viewCombine : ∀ a b, view (combine a b) = combine' (view a) (view b))
    (viewRound : ∀ key a, view (f key a) = f' key (view a)) (keys : List κ) (block : α × α) :
    Prod.map view view (run combine f keys block) =
      run combine' f' keys (Prod.map view view block) := by
  induction keys generalizing block with
  | nil => rfl
  | cons key rest ih =>
    rw [run_cons, run_cons, ih]
    congr 1
    simp only [step, Prod.map]
    rw [viewCombine, viewRound]

end Projection

end Feistel
