import Coast.Library.Runs
import Mathlib.Data.List.Basic

/-!
# The registry of allocators

`MTStorageInitializer` lists an allocator once for each reference, and takes
one element off the list when the last reference is given up.  The list stays
clean exactly as long as no allocator that is let go was listed twice.
-/

namespace Coast

open Runs List

/-- The allocators and their registry; `deletes` counts how often an allocator
was deleted, `known` tells whether it was ever referenced. -/
structure AllocatorRegistry (α : Type) where
  fRefCnt : α → Int
  fPoolAllocatorList : List α
  deletes : α → Nat
  known : α → Bool
  finalized : Bool

inductive AllocatorCall (α : Type) where
  /-- The allocation of the list element may fail. -/
  | refAllocator (wdallocator : Option α) (allocates : Bool)
  | unrefAllocator (wdallocator : Option α)
  | finalize
  deriving DecidableEq, Repr

namespace AllocatorRegistry

variable {α : Type} [DecidableEq α]

def refCnt (global : α) (this : AllocatorRegistry α) (a : α) : Int :=
  if a = global then 1 else this.fRefCnt a

/-- A list element for the allocator, and one reference more. -/
def refAllocator (this : AllocatorRegistry α) : Option α → Bool → AllocatorRegistry α
  | some a, true =>
    { this with
      fRefCnt := Function.update this.fRefCnt a (this.fRefCnt a + 1)
      fPoolAllocatorList := a :: this.fPoolAllocatorList
      known := Function.update this.known a true }
  | _, _ => this

def delete (deletes : α → Nat) (a : α) : α → Nat := Function.update deletes a (deletes a + 1)

def release (this : AllocatorRegistry α) (a : α) : AllocatorRegistry α :=
  if a ∈ this.fPoolAllocatorList then
    { this with
      fPoolAllocatorList := this.fPoolAllocatorList.erase a
      deletes := delete this.deletes a }
  else this

/-- At the last reference the allocator is deleted, unless it is the global one. -/
def unrefAllocator (global : α) (this : AllocatorRegistry α)
    (wdallocator : Option α) : AllocatorRegistry α :=
  match wdallocator with
  | none => this
  | some a =>
    let after := { this with
      fRefCnt := Function.update this.fRefCnt a (this.fRefCnt a - 1) }
    if after.refCnt global a ≤ 0 then after.release a else after

def finalizeLoop (getId : α → Int) (global : α) : List α → (α → Nat) → α → Nat
  | [], deletes => deletes
  | a :: rest, deletes =>
    finalizeLoop getId global rest (if getId a ≠ getId global then delete deletes a else deletes)

def finalize (getId : α → Int) (global : α) (this : AllocatorRegistry α) : AllocatorRegistry α :=
  { this with
    fPoolAllocatorList := []
    deletes := finalizeLoop getId global this.fPoolAllocatorList this.deletes
    finalized := true }

/-- A caller has a valid allocator, and gives up only references that it
has. -/
def step (getId : α → Int) (global : α) (this : AllocatorRegistry α)
    (call : AllocatorCall α) : Option (AllocatorRegistry α) :=
  if this.finalized then none
  else match call with
    | .refAllocator wdallocator allocates =>
      if ∀ a ∈ wdallocator, this.deletes a = 0 then
        some (this.refAllocator wdallocator allocates)
      else none
    | .unrefAllocator wdallocator =>
      if ∀ a ∈ wdallocator, 0 < this.fRefCnt a then
        some (this.unrefAllocator global wdallocator)
      else none
    | .finalize => some (this.finalize getId global)

def new : AllocatorRegistry α := ⟨fun _ => 0, [], fun _ => 0, fun _ => false, false⟩

/-- No deleted allocator is listed; an allocator is deleted once, when its
count drops to zero or by the final clean-up, and else not at all. -/
structure InStep (global : α) (this : AllocatorRegistry α) : Prop where
  listed : ∀ a ∈ this.fPoolAllocatorList, this.deletes a = 0
  deleted : ∀ a, this.deletes a =
    if this.known a ∧ (this.refCnt global a ≤ 0 ∨ this.finalized ∧ a ≠ global) then 1 else 0

/-- An allocator that is let go is listed once, and only the global one has
the id of the global allocator. -/
def Meets (getId : α → Int) (global : α) (this : AllocatorRegistry α) : AllocatorCall α → Prop
  | .refAllocator _ _ => True
  | .unrefAllocator wdallocator => ∀ a ∈ wdallocator, a ≠ global →
      this.fRefCnt a = 1 → this.fPoolAllocatorList.count a = 1
  | .finalize => ∀ a ∈ this.fPoolAllocatorList, a ≠ global →
      this.fPoolAllocatorList.count a = 1 ∧ getId a ≠ getId global

/-- What is known of one allocator. -/
structure Entry where
  refs : Int
  elements : Nat
  deletes : Nat
  known : Bool

def entry (this : AllocatorRegistry α) (a : α) : Entry :=
  ⟨this.fRefCnt a, this.fPoolAllocatorList.count a, this.deletes a, this.known a⟩

/-- Before the final clean-up there is an element for each reference. -/
structure EntryOk (counted finalized : Bool) (e : Entry) : Prop where
  listed : 0 < e.elements → e.deletes = 0
  deleted : e.deletes = if e.known ∧ counted ∧ (e.refs ≤ 0 ∨ finalized) then 1 else 0
  counts : 0 ≤ e.refs
  covered : finalized = false → e.refs ≤ e.elements
  fresh : e.known = false → e.refs = 0 ∧ e.elements = 0

def Inv (global : α) (this : AllocatorRegistry α) : Prop :=
  ∀ a, EntryOk (a ≠ global) this.finalized (this.entry a)

section

variable {getId : α → Int} {global : α} {this : AllocatorRegistry α}

theorem new_inv : Inv global (new : AllocatorRegistry α) := by
  intro a
  constructor <;> simp [new, entry]

theorem inStep_iff :
    InStep global this ↔ ∀ a, (0 < (this.entry a).elements → (this.entry a).deletes = 0) ∧
      (this.entry a).deletes = if (this.entry a).known ∧ a ≠ global ∧
          ((this.entry a).refs ≤ 0 ∨ this.finalized) then 1 else 0 := by
  have same : ∀ a, (this.refCnt global a ≤ 0 ∨
      this.finalized ∧ a ≠ global) ↔ a ≠ global ∧ (this.fRefCnt a ≤ 0 ∨ this.finalized) := by
    intro a
    rw [refCnt]
    split_ifs with isGlobal <;> simp [isGlobal]
  constructor
  · intro inStep a
    refine ⟨fun listed => inStep.listed a (count_pos_iff.mp listed), ?_⟩
    have deleted := inStep.deleted a
    simp only [same] at deleted
    exact deleted
  · intro entries
    constructor
    · intro a member
      exact (entries a).1 (count_pos_iff.mpr member)
    · intro a
      simp only [same]
      exact (entries a).2

theorem Inv.inStep (inv : Inv global this) : InStep global this := by
  rw [inStep_iff]
  intro a
  have ok := inv a
  have deleted := ok.deleted
  simp only [decide_eq_true_eq] at deleted
  exact ⟨ok.listed, deleted⟩

theorem finalizeLoop_eq (list : List α) (deletes : α → Nat) (a : α) :
    finalizeLoop getId global list deletes a =
      deletes a + if getId a ≠ getId global then list.count a else 0 := by
  induction list generalizing deletes with
  | nil => simp [finalizeLoop]
  | cons first rest ih =>
    rw [finalizeLoop, ih, count_cons]
    by_cases same : first = a
    · subst same
      by_cases other : getId first = getId global
      · simp [other]
      · simp [other, delete]
        omega
    · have kept : delete deletes first a = deletes a := Function.update_of_ne (Ne.symm same) _ _
      rw [beq_false_of_ne same]
      split_ifs <;> simp_all

theorem entry_ref_self (a : α) :
    (this.refAllocator (some a) true).entry a =
      ⟨this.fRefCnt a + 1, this.fPoolAllocatorList.count a + 1, this.deletes a, true⟩ := by
  simp [refAllocator, entry]

theorem entry_ref_of_ne {a b : α} (other : b ≠ a) :
    (this.refAllocator (some a) true).entry b = this.entry b := by
  simp [refAllocator, entry, other, Ne.symm other]

theorem entry_unref_self (a : α) :
    (this.unrefAllocator global (some a)).entry a =
      if a ≠ global ∧ this.fRefCnt a - 1 ≤ 0 ∧ a ∈ this.fPoolAllocatorList then
        ⟨this.fRefCnt a - 1, this.fPoolAllocatorList.count a - 1, this.deletes a + 1, this.known a⟩
      else
        ⟨this.fRefCnt a - 1, this.fPoolAllocatorList.count a, this.deletes a, this.known a⟩ := by
  by_cases isGlobal : a = global
  · simp [unrefAllocator, entry, refCnt, isGlobal]
  · have counted : ∀ refs : AllocatorRegistry α,
        refs.refCnt global a = refs.fRefCnt a := fun _ => if_neg isGlobal
    rw [unrefAllocator]
    simp only [counted, Function.update_self]
    by_cases last : this.fRefCnt a - 1 ≤ 0
    · rw [if_pos last, release]
      by_cases member : a ∈ this.fPoolAllocatorList <;> simp [entry, isGlobal, last, member, delete]
    · simp [entry, last]

theorem entry_unref_of_ne {a b : α} (other : b ≠ a) :
    (this.unrefAllocator global (some a)).entry b = this.entry b := by
  simp only [unrefAllocator]
  split_ifs
  · rw [release]
    split_ifs <;> simp [entry, delete, other, count_erase_of_ne]
  · simp [entry, other]

theorem entry_finalize (a : α) :
    (this.finalize getId global).entry a = ⟨this.fRefCnt a, 0, this.deletes a +
        if getId a ≠ getId global then this.fPoolAllocatorList.count a
        else 0, this.known a⟩ := by
  simp [finalize, entry, finalizeLoop_eq]

variable {after : AllocatorRegistry α}

theorem open_of_step {call : AllocatorCall α} (steps : step getId global this call = some after) :
    this.finalized = false := by
  unfold step at steps
  split_ifs at steps with ended
  exact Bool.eq_false_iff.mpr ended

theorem step_refAllocator {wdallocator : Option α} {allocates : Bool}
    (steps : step getId global this (.refAllocator wdallocator allocates) = some after) :
    after = this ∨ ∃ a, this.deletes a = 0 ∧ after = this.refAllocator (some a) true := by
  have going := open_of_step steps
  simp only [step, going, Bool.false_eq_true, if_false] at steps
  split_ifs at steps with valid
  cases steps
  cases wdallocator with
  | none => exact .inl rfl
  | some a =>
    cases allocates with
    | false => exact .inl rfl
    | true => exact .inr ⟨a, valid a rfl, rfl⟩

theorem step_unrefAllocator {wdallocator : Option α}
    (steps : step getId global this (.unrefAllocator wdallocator) = some after) :
    (wdallocator = none ∧ after = this) ∨ ∃ a, wdallocator = some a ∧ 0 < this.fRefCnt a ∧
        after = this.unrefAllocator global (some a) := by
  have going := open_of_step steps
  simp only [step, going, Bool.false_eq_true, if_false] at steps
  split_ifs at steps with valid
  cases steps
  cases wdallocator with
  | none => exact .inl ⟨rfl, rfl⟩
  | some a => exact .inr ⟨a, rfl, valid a rfl, rfl⟩

theorem step_finalize (steps : step getId global this .finalize = some after) :
    after = this.finalize getId global := by
  have going := open_of_step steps
  simp only [step, going, Bool.false_eq_true, if_false] at steps
  cases steps
  rfl

section

variable (inv : Inv global this)
include inv

theorem Inv.ref (going : this.finalized = false)
    {a : α} (valid : this.deletes a = 0) :
    Inv global (this.refAllocator (some a) true) := by
  intro b
  by_cases same : b = a
  · have ok := inv a
    have counts := ok.counts
    have covered := ok.covered going
    subst same
    rw [entry_ref_self]
    have open_ : (this.refAllocator (some b) true).finalized = false := going
    rw [open_]
    simp only [entry] at counts covered
    constructor
    · exact fun _ => valid
    · rw [if_neg]
      · exact valid
      · rintro ⟨_, _, gone | ended⟩
        · simp only at gone
          omega
        · cases ended
    · simp only
      omega
    · intro _
      simp only
      omega
    · nofun
  · rw [entry_ref_of_ne same]
    exact inv b

theorem Inv.unref (going : this.finalized = false)
    {a : α} (used : 0 < this.fRefCnt a)
    (single : a ≠ global → this.fRefCnt a = 1 → this.fPoolAllocatorList.count a = 1) :
    Inv global (this.unrefAllocator global (some a)) := by
  have open_ : (this.unrefAllocator global (some a)).finalized = false := by
    simp only [unrefAllocator]
    split_ifs
    · rw [release]
      split_ifs <;> exact going
    · exact going
  intro b
  rw [open_]
  by_cases same : b = a
  · subst same
    have ok := inv b
    rw [going] at ok
    have covered := ok.covered rfl
    have deleted := ok.deleted
    have fresh := ok.fresh
    have listed := ok.listed
    rw [entry_unref_self]
    simp only [entry] at covered deleted fresh listed
    have member : b ∈ this.fPoolAllocatorList := by
      apply count_pos_iff.mp
      omega
    have positive := count_pos_iff.mpr member
    have known : this.known b = true := by
      cases unknown : this.known b with
      | true => rfl
      | false => exact absurd (fresh unknown).1 (by omega)
    split_ifs with last
    · have one : this.fRefCnt b = 1 := by omega
      have alone := single last.1 one
      constructor
      · simp only
        omega
      · have kept := listed positive
        simp [known, kept, one, last.1]
      · simp only
        omega
      · simp only
        omega
      · simp [known]
    · have left : b ≠ global → 1 < this.fRefCnt b := by
        intro counted
        by_contra few
        exact last ⟨counted, by omega, member⟩
      constructor
      · exact listed
      · have kept := listed positive
        rw [if_neg]
        · exact kept
        · simp only [decide_eq_true_eq]
          rintro ⟨_, counted, gone | ended⟩
          · have := left counted
            omega
          · cases ended
      · simp only
        omega
      · simp only
        omega
      · simp [known]
  · rw [entry_unref_of_ne same]
    have ok := inv b
    rw [going] at ok
    exact ok

theorem Inv.finalize (going : this.finalized = false)
    (single : ∀ a ∈ this.fPoolAllocatorList, a ≠ global →
      this.fPoolAllocatorList.count a = 1 ∧ getId a ≠ getId global) :
    Inv global (this.finalize getId global) := by
  intro a
  have ok := inv a
  rw [going] at ok
  have ended : (this.finalize getId global).finalized = true := rfl
  rw [ended, entry_finalize]
  have deleted := ok.deleted
  have fresh := ok.fresh
  have listed := ok.listed
  have covered := ok.covered rfl
  simp only [entry] at deleted fresh listed covered
  constructor
  · nofun
  · simp only [decide_eq_true_eq, or_true, and_true]
    cases known : this.known a with
    | false => simp_all
    | true =>
      by_cases isGlobal : a = global
      · simp_all
      · by_cases used : this.fRefCnt a ≤ 0
        · -- deleted before, so that no element is left
          have once : this.deletes a = 1 := by
            simp_all
          have none' : this.fPoolAllocatorList.count a = 0 := by
            by_contra some_
            have := listed (Nat.pos_of_ne_zero some_)
            omega
          simp [once, none', isGlobal]
        · have member : a ∈ this.fPoolAllocatorList := by
            apply count_pos_iff.mp
            omega
          have alive : this.deletes a = 0 := listed (count_pos_iff.mpr member)
          have alone := single a member isGlobal
          simp [alive, alone, isGlobal]
  · exact ok.counts
  · nofun
  · intro unknown
    exact ⟨(fresh unknown).1, rfl⟩

end

theorem step_inv (this : AllocatorRegistry α) (call : AllocatorCall α)
    (after : AllocatorRegistry α) (inv : Inv global this) (meets : Meets getId global this call)
    (steps : step getId global this call = some after) :
    Inv global after := by
  have going := open_of_step steps
  cases call with
  | refAllocator wdallocator allocates =>
    rcases step_refAllocator steps with rfl | ⟨a, valid, rfl⟩
    · exact inv
    · exact inv.ref going valid
  | unrefAllocator wdallocator =>
    rcases step_unrefAllocator steps with ⟨_, rfl⟩ | ⟨a, rfl, used, rfl⟩
    · exact inv
    · exact inv.unref going used (meets a rfl)
  | finalize =>
    rw [step_finalize steps]
    exact inv.finalize going meets

/-- An allocator that is listed more than once is let go: an element of it
stays in the list, or it is deleted more than once. -/
theorem step_not_inStep (this : AllocatorRegistry α) (call : AllocatorCall α)
    (after : AllocatorRegistry α) (inv : Inv global this) (misses : ¬ Meets getId global this call)
    (steps : step getId global this call = some after) :
    ¬ InStep global after := by
  intro inStep
  apply misses
  have going := open_of_step steps
  rw [inStep_iff] at inStep
  cases call with
  | refAllocator wdallocator allocates => trivial
  | unrefAllocator wdallocator =>
    rintro a rfl counted one
    rcases step_unrefAllocator steps with ⟨none', _⟩ | ⟨b, same, _, rfl⟩
    · cases none'
    · cases same
      have covered := (inv a).covered going
      simp only [entry] at covered
      have member : a ∈ this.fPoolAllocatorList := by
        apply count_pos_iff.mp
        omega
      have listed := (inStep a).1
      rw [entry_unref_self, if_pos ⟨counted, by omega, member⟩] at listed
      simp only at listed
      by_contra several
      have := listed (by omega)
      omega
  | finalize =>
    intro a member counted
    have deleted := (inStep a).2
    have known : this.known a = true := by
      cases unknown : this.known a with
      | true => rfl
      | false =>
        have none' := ((inv a).fresh unknown).2
        exact absurd (count_pos_iff.mpr member) (by simp only [entry] at none'; omega)
    have alive : this.deletes a = 0 := (inv a).listed (count_pos_iff.mpr member)
    have ended : (this.finalize getId global).finalized = true := rfl
    rw [step_finalize steps, entry_finalize, ended] at deleted
    simp only [known, alive, counted, ne_eq, not_false_eq_true, or_true,
      and_true, if_true, Nat.zero_add] at deleted
    split_ifs at deleted with foreign
    exact ⟨deleted, foreign⟩

/-- In a run from an empty registry the list, the counts and the deletions
stay in step exactly as long as an allocator that is let go is listed once. -/
theorem new_run_inStep_iff {calls : List (AllocatorCall α)} {last : AllocatorRegistry α}
    (runs : run (step getId global) new calls = some last) :
    Always (step getId global) (InStep global) new calls ↔
      Along (step getId global) (Meets getId global) new calls :=
  always_iff_along step_inv (fun _ inv => inv.inStep) step_not_inStep new_inv runs

end

/-- Two pool allocators; the second is left for the final clean-up. -/
private def twoPools : List (AllocatorCall Nat) :=
  [.refAllocator (some 1) true, .refAllocator (some 0) true,
    .refAllocator (some 2) true, .unrefAllocator (some 1),
    .unrefAllocator (some 0), .finalize]

theorem new_run_inStep_iff_twoPools :
    ∃ last, run (step (fun a : Nat => a) 0) new twoPools = some last ∧
      (Always (step (fun a : Nat => a) 0) (InStep 0) new twoPools ↔
        Along (step (fun a : Nat => a) 0) (Meets (fun a : Nat => a) 0) new
          twoPools) :=
  ⟨_, rfl, new_run_inStep_iff rfl⟩

/-- Two threads share an allocator: both give it up, and the list still
holds it. -/
theorem not_new_run_listed :
    ¬ ∀ (calls : List (AllocatorCall Nat)) (last : AllocatorRegistry Nat),
      run (step (fun a : Nat => a) 0) new calls = some last →
        ∀ a ∈ last.fPoolAllocatorList, last.deletes a = 0 := by
  intro listed
  have alive := listed [.refAllocator (some 1) true,
    .refAllocator (some 1) true, .unrefAllocator (some 1),
    .unrefAllocator (some 1)] _ rfl 1 (by decide)
  exact absurd alive (by decide)

end AllocatorRegistry

end Coast
