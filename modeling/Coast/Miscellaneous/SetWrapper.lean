import Coast.Library.OrderedSet
import Mathlib.Order.BooleanAlgebra.Set

/-!
# The wrapper of an ordered set

`set_wrapper` creates its list when the first item is added.  The list keeps
the order of its `CompareType`; the ranges are also tested with the
`operator<` of the items.
-/

namespace Coast

structure SetWrapper (α : Type) [LinearOrder α] where
  fpList : Option (OrderedSet α)

namespace SetWrapper

variable {α : Type} [LinearOrder α]

def create : SetWrapper α := ⟨none⟩

def intHasList (this : SetWrapper α) : Bool := this.fpList.isSome

def intGetCreateListPtr (this : SetWrapper α) : OrderedSet α := this.fpList.getD .empty

def contents (this : SetWrapper α) : Set α := this.intGetCreateListPtr.contents

def intAddItem (this : SetWrapper α) (aItem : α) : Bool × SetWrapper α :=
  let list := this.intGetCreateListPtr
  (!decide (aItem ∈ list.items), ⟨some (list.insert aItem)⟩)

def intDeleteItem (this : SetWrapper α) (aItem : α) : Bool × SetWrapper α :=
  match this.fpList with
  | none => (false, this)
  | some list => (decide (aItem ∈ list.items), ⟨some (list.erase aItem)⟩)

def addItem (this : SetWrapper α) (aItem : α) : Bool × SetWrapper α := this.intAddItem aItem

def deleteItem (this : SetWrapper α) (aItem : α) : Bool × SetWrapper α := this.intDeleteItem aItem

def replaceItem (this : SetWrapper α) (aItem : α) : Bool × SetWrapper α :=
  (this.intDeleteItem aItem).2.intAddItem aItem

def clear (this : SetWrapper α) : SetWrapper α :=
  match this.fpList with
  | none => this
  | some _ => ⟨some .empty⟩

/-- The test of the first item of a range, with the `operator<` of the
items. -/
def withinRange (less : α → α → Bool) (begin_ aItemMax : α) : Bool :=
  less begin_ aItemMax || !less aItemMax begin_

/-- Whether the range is not empty, and the iterators where there is a list.
There is no result where `end()` is dereferenced. -/
def intFindItemRange (less : α → α → Bool) (this : SetWrapper α)
    (aItemMin aItemMax : α) : Option (Bool × Option (Nat × Nat)) :=
  match this.fpList with
  | none => some (false, none)
  | some list =>
    let rItemsBegin := list.lowerBound aItemMin
    let rItemsEnd := list.upperBound aItemMax
    if rItemsBegin ≠ list.size ∨ rItemsEnd ≠ list.size then
      list.items[rItemsBegin]?.map fun begin_ =>
        (withinRange less begin_ aItemMax, some (rItemsBegin, rItemsEnd))
    else some (false, some (rItemsBegin, rItemsEnd))

def findItemRange (less : α → α → Bool) (this : SetWrapper α)
    (aItemMin aItemMax : α) : Option (Bool × Option (Nat × Nat)) :=
  if this.intHasList then this.intFindItemRange less aItemMin aItemMax
  else some (false, none)

def deleteItemsBetween (this : SetWrapper α) (rItemsBegin rItemsEnd : Nat) :
    Option (Bool × SetWrapper α) :=
  match this.fpList with
  | none => some (false, this)
  | some list =>
    (list.eraseRange rItemsBegin rItemsEnd).map fun rest =>
      (true, ⟨some rest⟩)

/-- The range is looked up and erased. -/
def deleteItemRange (less : α → α → Bool) (this : SetWrapper α)
    (aItemMin aItemMax : α) : Option (Bool × SetWrapper α) :=
  match this.intFindItemRange less aItemMin aItemMax with
  | none => none
  | some (true, some (rItemsBegin, rItemsEnd)) =>
    this.deleteItemsBetween rItemsBegin rItemsEnd
  | some _ => some (false, this)

def removeBefore (list : OrderedSet α) (aItemMin : α) : Option (Bool × OrderedSet α) :=
  let aBoundPos := list.upperBound aItemMin
  if aBoundPos ≠ list.size ∧ aBoundPos ≠ 0 then
    (list.eraseRange 0 aBoundPos).map (true, ·)
  else some (false, list)

def removeBehind (list : OrderedSet α) (aItemMax : α) : Option (Bool × OrderedSet α) :=
  let aBoundPos := list.upperBound aItemMax
  if aBoundPos ≠ list.size then
    (list.eraseRange aBoundPos list.size).map (true, ·)
  else some (false, list)

/-- The items below and above a range are erased. -/
def intReduceToRange (this : SetWrapper α) (aItemMin aItemMax : α) : Option (Bool × SetWrapper α) :=
  match this.fpList with
  | none => some (false, this)
  | some list => do
      let (before, list) ← removeBefore list aItemMin
      let (behind, list) ← removeBehind list aItemMax
      some (before || behind, ⟨some list⟩)

def reduceToRange (this : SetWrapper α) (aItemMin aItemMax : α) : Option (Bool × SetWrapper α) :=
  if this.intHasList then this.intReduceToRange aItemMin aItemMax
  else some (false, this)

def copyItems (pThisList pOtherList : OrderedSet α) : OrderedSet α :=
  pThisList.insertAll pOtherList.items

def assign (this other : SetWrapper α) : SetWrapper α :=
  match other.fpList with
  | none => this
  | some pOtherList => ⟨some (copyItems this.intGetCreateListPtr pOtherList)⟩

@[simp] theorem contents_none : (⟨none⟩ : SetWrapper α).contents = ∅ := OrderedSet.contents_empty

@[simp] theorem contents_some (list : OrderedSet α) :
    (⟨some list⟩ : SetWrapper α).contents = list.contents := rfl

section

variable (this : SetWrapper α)
include this

theorem contents_addItem (aItem : α) :
    (this.addItem aItem).2.contents = insert aItem this.contents :=
  OrderedSet.contents_insert _ aItem

theorem contents_deleteItem (aItem : α) :
    (this.deleteItem aItem).2.contents = this.contents \ {aItem} := by
  rcases this with ⟨_ | list⟩
  · change (⟨none⟩ : SetWrapper α).contents = (⟨none⟩ : SetWrapper α).contents \ {aItem}
    rw [contents_none, Set.empty_sdiff]
  · exact OrderedSet.contents_erase list aItem

theorem contents_replaceItem (aItem : α) :
    (this.replaceItem aItem).2.contents = insert aItem this.contents := by
  have deleted : (this.intDeleteItem aItem).2.contents =
      this.contents \ {aItem} := this.contents_deleteItem aItem
  calc (this.replaceItem aItem).2.contents
      = insert aItem (this.intDeleteItem aItem).2.contents := OrderedSet.contents_insert _ aItem
    _ = insert aItem (this.contents \ {aItem}) := by rw [deleted]
    _ = insert aItem this.contents := Set.insert_sdiff_singleton

theorem contents_clear : this.clear.contents = ∅ := by
  rcases this with ⟨_ | list⟩
  · exact contents_none
  · exact OrderedSet.contents_empty

end

theorem contents_assign (this other : SetWrapper α) :
    (this.assign other).contents = this.contents ∪ other.contents := by
  rcases other with ⟨_ | list⟩
  · change this.contents = _
    rw [contents_none, Set.union_empty]
  · exact OrderedSet.contents_insertAll _ _

/-- The items from one iterator up to the other one, where the range was
found. -/
def rangeItems (this : SetWrapper α) : Bool × Option (Nat × Nat) → List α
  | (true, some (rItemsBegin, rItemsEnd)) =>
    this.intGetCreateListPtr.range rItemsBegin rItemsEnd
  | _ => []

/-- `FindItemRange` tells whether there are items between the bounds, and
which ones. -/
def ReportsRange (less : α → α → Bool) (this : SetWrapper α) (aItemMin aItemMax : α) : Prop :=
  ∃ answer, this.findItemRange less aItemMin aItemMax = some answer ∧
    (answer.1 = true ↔ ∃ x ∈ this.contents, aItemMin ≤ x ∧ x ≤ aItemMax) ∧
    this.rangeItems answer = this.intGetCreateListPtr.items.filter
      fun x => decide (x ≤ aItemMax) && !decide (x < aItemMin)

/-- `DeleteItemRange` takes the items between the bounds out. -/
def DeletesRange (less : α → α → Bool) (this : SetWrapper α) (aItemMin aItemMax : α) : Prop :=
  ∃ answer, this.deleteItemRange less aItemMin aItemMax = some answer ∧
    answer.2.contents = { x | x ∈ this.contents ∧ ¬ (aItemMin ≤ x ∧ x ≤ aItemMax) }

/-- `ReduceToRange` leaves the items between the bounds. -/
def ReducesToRange (this : SetWrapper α) (aItemMin aItemMax : α) : Prop :=
  ∃ answer, this.reduceToRange aItemMin aItemMax = some answer ∧
    answer.2.contents = { x | x ∈ this.contents ∧ aItemMin ≤ x ∧ x ≤ aItemMax }

def IsFirst (items : Set α) (aItemMin first : α) : Prop :=
  first ∈ items ∧ aItemMin ≤ first ∧ ∀ x ∈ items, aItemMin ≤ x → first ≤ x

/-- Where all items are below the lower bound none is above the upper one. -/
def EndIsSafe (items : Set α) (aItemMin aItemMax : α) : Prop :=
  (∀ x ∈ items, x < aItemMin) → ∀ x ∈ items, x ≤ aItemMax

def FindMeets (less : α → α → Bool) (items : Set α) (aItemMin aItemMax : α) : Prop :=
  EndIsSafe items aItemMin aItemMax ∧ ∀ first,
    IsFirst items aItemMin first → (withinRange less first aItemMax = true ↔ first ≤ aItemMax)

def DeleteMeets (less : α → α → Bool) (items : Set α) (aItemMin aItemMax : α) : Prop :=
  EndIsSafe items aItemMin aItemMax ∧ ∀ first, IsFirst items aItemMin first →
      (first ≤ aItemMax → withinRange less first aItemMax = true) ∧
      (aItemMax < first → withinRange less first aItemMax = true →
        ∀ x ∈ items, x < aItemMin → x ≤ aItemMax)

/-- The lower bound itself is lost where there are items behind it, and
nothing is removed in front of it where there are none. -/
def ReduceMeets (items : Set α) (aItemMin aItemMax : α) : Prop :=
  ((∃ x ∈ items, aItemMin < x) → aItemMin ∈ items → aItemMax < aItemMin) ∧
  ((∀ x ∈ items, x ≤ aItemMin) → ∀ x ∈ items, x < aItemMin → aItemMax < x)

variable {less : α → α → Bool} {aItemMin aItemMax : α}

variable {items : Set α} {first : α}

theorem IsFirst.unique {other : α} (one : IsFirst items aItemMin first)
    (another : IsFirst items aItemMin other) : first = other :=
  le_antisymm (one.2.2 other another.1 another.2.1) (another.2.2 first one.1 one.2.1)

variable {list : OrderedSet α}

theorem isFirst_of_lowerBound (found : list.items[list.lowerBound aItemMin]? = some first) :
    IsFirst list.contents aItemMin first := by
  rcases OrderedSet.item_at_bound (OrderedSet.initial_lt aItemMin) found
    with ⟨inside, behind, least⟩
  refine ⟨inside, not_lt.mp (of_decide_eq_false behind), ?_⟩
  intro x member above
  exact least x member (decide_eq_false (not_lt.mpr above))

theorem IsFirst.exists_iff (isFirst : IsFirst items aItemMin first) :
    (∃ x ∈ items, aItemMin ≤ x ∧ x ≤ aItemMax) ↔ first ≤ aItemMax := by
  constructor
  · rintro ⟨x, member, above, below⟩
    exact (isFirst.2.2 x member above).trans below
  · intro below
    exact ⟨first, isFirst.1, isFirst.2.1, below⟩

theorem IsFirst.endIsSafe (isFirst : IsFirst items aItemMin first) :
    EndIsSafe items aItemMin aItemMax :=
  fun before => absurd (before first isFirst.1) (not_lt.mpr isFirst.2.1)

theorem intFindItemRange_of_first (found : list.items[list.lowerBound aItemMin]? = some first) :
    (⟨some list⟩ : SetWrapper α).intFindItemRange less aItemMin aItemMax =
      some (withinRange less first aItemMax,
        some (list.lowerBound aItemMin, list.upperBound aItemMax)) := by
  have inside : list.lowerBound aItemMin < list.size := (List.getElem?_eq_some_iff.mp found).1
  simp only [intFindItemRange, found, Option.map_some, if_pos (Or.inl (Nat.ne_of_lt inside))]

theorem intFindItemRange_of_none (missing : list.items[list.lowerBound aItemMin]? = none) :
    (⟨some list⟩ : SetWrapper α).intFindItemRange less aItemMin aItemMax =
      if list.upperBound aItemMax = list.size then
        some (false, some (list.size, list.size))
      else none := by
  have behind : list.lowerBound aItemMin = list.size :=
    Nat.le_antisymm (list.bound_le_size _) (List.getElem?_eq_none_iff.mp missing)
  by_cases ends : list.upperBound aItemMax = list.size
  · simp only [intFindItemRange, behind, ends, ne_eq, not_true_eq_false, or_self, if_false, if_true]
  · rw [behind] at missing
    simp only [intFindItemRange, behind, ends, missing, ne_eq,
      not_false_eq_true, or_true, if_true, if_false, Option.map_none]

theorem upperBound_eq_size :
    list.upperBound aItemMax = list.size ↔ ∀ x ∈ list.contents, x ≤ aItemMax := by
  rw [OrderedSet.upperBound, OrderedSet.bound_eq_size]
  simp only [decide_eq_true_eq]

theorem all_below (missing : list.items[list.lowerBound aItemMin]? = none) :
    ∀ x ∈ list.contents, x < aItemMin := by
  intro x member
  have initial := OrderedSet.initial_lt aItemMin
  exact of_decide_eq_true ((OrderedSet.no_item_at_bound initial).mp missing x member)

theorem endIsSafe_iff (missing : list.items[list.lowerBound aItemMin]? = none) :
    EndIsSafe list.contents aItemMin aItemMax ↔ list.upperBound aItemMax = list.size := by
  rw [upperBound_eq_size]
  exact ⟨fun safe => safe (all_below missing), fun below _ => below⟩

theorem not_isFirst (below : ∀ x ∈ items, x < aItemMin) : ¬ IsFirst items aItemMin first :=
  fun isFirst => absurd (below first isFirst.1) (not_lt.mpr isFirst.2.1)

theorem filter_range_nil (outside : ¬ ∃ x ∈ list.contents, aItemMin ≤ x ∧ x ≤ aItemMax) :
    (list.items.filter fun x =>
      decide (x ≤ aItemMax) && !decide (x < aItemMin)) = [] := by
  apply List.filter_eq_nil_iff.mpr
  intro x member inside
  rw [Bool.and_eq_true, Bool.not_eq_true', decide_eq_true_eq,
    decide_eq_false_iff_not, not_lt] at inside
  exact outside ⟨x, member, inside.2, inside.1⟩

theorem range_of_le (ordered : aItemMin ≤ aItemMax) :
    list.range (list.lowerBound aItemMin) (list.upperBound aItemMax) = list.items.filter fun x =>
        decide (x ≤ aItemMax) && !decide (x < aItemMin) := by
  apply OrderedSet.range_of_bounds (OrderedSet.initial_lt aItemMin) (OrderedSet.initial_le aItemMax)
  intro x below
  exact decide_eq_true ((of_decide_eq_true below).le.trans ordered)

theorem reportsRange_iff (this : SetWrapper α) :
    this.ReportsRange less aItemMin aItemMax ↔ FindMeets less this.contents aItemMin aItemMax := by
  rcases this with ⟨_ | list⟩
  · apply iff_of_true
    · refine ⟨(false, none), rfl, ?_, rfl⟩
      rw [contents_none]
      exact iff_of_false nofun fun ⟨_, member, _⟩ => member
    · rw [contents_none]
      exact ⟨fun _ _ member => absurd member id, fun _ isFirst =>
        absurd isFirst.1 id⟩
  rw [ReportsRange, FindMeets, contents_some]
  change (∃ answer, (⟨some list⟩ : SetWrapper α).intFindItemRange less
    aItemMin aItemMax = some answer ∧ _) ↔ _
  cases found : list.items[list.lowerBound aItemMin]? with
  | none =>
    have below := all_below found
    have outside : ¬ ∃ x ∈ list.contents, aItemMin ≤ x ∧ x ≤ aItemMax := by
      rintro ⟨x, member, above, -⟩
      exact absurd (below x member) (not_lt.mpr above)
    rw [intFindItemRange_of_none found, endIsSafe_iff found]
    constructor
    · rintro ⟨answer, finds, -, -⟩
      have ends : list.upperBound aItemMax = list.size := by
        by_contra late
        rw [if_neg late] at finds
        cases finds
      exact ⟨ends, fun _ isFirst => absurd isFirst (not_isFirst below)⟩
    · rintro ⟨ends, -⟩
      exact ⟨_, if_pos ends, iff_of_false nofun outside, (filter_range_nil outside).symm⟩
  | some first =>
    have isFirst := isFirst_of_lowerBound found
    rw [intFindItemRange_of_first found]
    constructor
    · rintro ⟨answer, finds, tells, -⟩
      cases finds
      refine ⟨isFirst.endIsSafe, ?_⟩
      intro other another
      rw [← isFirst.unique another, tells]
      exact isFirst.exists_iff
    · rintro ⟨-, compares⟩
      have agrees := compares first isFirst
      refine ⟨_, rfl, agrees.trans isFirst.exists_iff.symm, ?_⟩
      cases tested : withinRange less first aItemMax with
      | true =>
        exact range_of_le (isFirst.2.1.trans (agrees.mp tested))
      | false =>
        have outside : ¬ ∃ x ∈ list.contents, aItemMin ≤ x ∧ x ≤ aItemMax := by
          rw [isFirst.exists_iff, ← agrees, tested]
          nofun
        exact (filter_range_nil outside).symm

theorem outside_range (outside : ¬ ∃ x ∈ items, aItemMin ≤ x ∧ x ≤ aItemMax) :
    { x | x ∈ items ∧ ¬ (aItemMin ≤ x ∧ x ≤ aItemMax) } = items := by
  ext x
  exact ⟨And.left, fun member =>
    ⟨member, fun inside => outside ⟨x, member, inside⟩⟩⟩

theorem eraseRange_bounds (ordered : list.lowerBound aItemMin ≤ list.upperBound aItemMax) :
    ∃ rest, list.eraseRange (list.lowerBound aItemMin)
        (list.upperBound aItemMax) = some rest ∧
      rest.contents = { x | x ∈ list.contents ∧ ¬ (aItemMin ≤ x ∧ x ≤ aItemMax) } := by
  rcases OrderedSet.eraseRange_of_bounds (OrderedSet.initial_lt aItemMin)
    (OrderedSet.initial_le aItemMax) ordered with ⟨rest, erases, same⟩
  refine ⟨rest, erases, same.trans ?_⟩
  ext x
  simp only [Set.mem_ofPred_eq, decide_eq_true_eq, decide_eq_false_iff_not, not_and_or, not_le]

theorem bounds_ordered :
    list.lowerBound aItemMin ≤ list.upperBound aItemMax ↔
      ∀ x ∈ list.contents, x < aItemMin → x ≤ aItemMax := by
  rw [OrderedSet.lowerBound, OrderedSet.upperBound,
    OrderedSet.bound_le_iff (OrderedSet.initial_lt aItemMin) (OrderedSet.initial_le aItemMax)]
  simp only [decide_eq_true_eq]

theorem deleteItemsBetween_some (list : OrderedSet α) (rItemsBegin rItemsEnd : Nat) :
    (⟨some list⟩ : SetWrapper α).deleteItemsBetween rItemsBegin rItemsEnd =
      (list.eraseRange rItemsBegin rItemsEnd).map fun rest =>
        (true, ⟨some rest⟩) := rfl

theorem deletes_found (isFirst : IsFirst list.contents aItemMin first) :
    (∃ answer, (⟨some list⟩ : SetWrapper α).deleteItemsBetween
        (list.lowerBound aItemMin) (list.upperBound aItemMax) = some answer ∧
      answer.2.contents = { x | x ∈ list.contents ∧ ¬ (aItemMin ≤ x ∧ x ≤ aItemMax) }) ↔
    (aItemMax < first → ∀ x ∈ list.contents, x < aItemMin → x ≤ aItemMax) := by
  constructor
  · rintro ⟨answer, deletes, -⟩ -
    rw [← bounds_ordered]
    by_contra late
    have erases : list.eraseRange (list.lowerBound aItemMin)
        (list.upperBound aItemMax) = none := dif_neg late
    rw [deleteItemsBetween_some, erases] at deletes
    cases deletes
  · intro inner
    have ordered : ∀ x ∈ list.contents, x < aItemMin → x ≤ aItemMax := by
      intro x member before
      rcases le_or_gt first aItemMax with below | behind
      · exact before.le.trans (isFirst.2.1.trans below)
      · exact inner behind x member before
    rcases eraseRange_bounds (bounds_ordered.mpr ordered) with ⟨rest, erases, same⟩
    refine ⟨(true, ⟨some rest⟩), ?_, same⟩
    rw [deleteItemsBetween_some, erases, Option.map_some]

theorem deletesRange_iff (this : SetWrapper α) :
    this.DeletesRange less aItemMin aItemMax ↔
      DeleteMeets less this.contents aItemMin aItemMax := by
  rcases this with ⟨_ | list⟩
  · apply iff_of_true
    · refine ⟨(false, ⟨none⟩), rfl, ?_⟩
      rw [contents_none]
      exact (Set.eq_empty_of_forall_notMem fun x member => member.1).symm
    · rw [contents_none]
      exact ⟨fun _ _ member => absurd member id, fun _ isFirst =>
        absurd isFirst.1 id⟩
  rw [DeletesRange, DeleteMeets, contents_some]
  cases found : list.items[list.lowerBound aItemMin]? with
  | none =>
    have below := all_below found
    have outside : ¬ ∃ x ∈ list.contents, aItemMin ≤ x ∧ x ≤ aItemMax := by
      rintro ⟨x, member, above, -⟩
      exact absurd (below x member) (not_lt.mpr above)
    rw [deleteItemRange, intFindItemRange_of_none found, endIsSafe_iff found]
    constructor
    · rintro ⟨answer, deletes, -⟩
      have ends : list.upperBound aItemMax = list.size := by
        by_contra late
        rw [if_neg late] at deletes
        cases deletes
      exact ⟨ends, fun _ isFirst => absurd isFirst (not_isFirst below)⟩
    · rintro ⟨ends, -⟩
      rw [if_pos ends]
      exact ⟨_, rfl, (outside_range outside).symm⟩
  | some first =>
    have isFirst := isFirst_of_lowerBound found
    have alone : DeleteMeets less list.contents aItemMin aItemMax ↔
        (first ≤ aItemMax → withinRange less first aItemMax = true) ∧
        (aItemMax < first → withinRange less first aItemMax = true →
          ∀ x ∈ list.contents, x < aItemMin → x ≤ aItemMax) := by
      constructor
      · exact fun meets => meets.2 first isFirst
      · refine fun meets => ⟨isFirst.endIsSafe, fun other another => ?_⟩
        rw [← isFirst.unique another]
        exact meets
    rw [DeleteMeets] at alone
    rw [alone, deleteItemRange, intFindItemRange_of_first found]
    cases tested : withinRange less first aItemMax with
    | true =>
      simp only [deletes_found isFirst, implies_true, true_and, forall_const]
    | false =>
      simp only [Bool.false_eq_true, imp_false, not_le, IsEmpty.forall_iff, implies_true, and_true]
      constructor
      · rintro ⟨answer, deletes, same⟩
        cases deletes
        by_contra early
        have member : first ∈ list.contents := isFirst.1
        have kept : first ∈ (⟨some list⟩ : SetWrapper α).contents := member
        rw [same] at kept
        exact kept.2 ⟨isFirst.2.1, not_lt.mp early⟩
      · intro behind
        have outside : ¬ ∃ x ∈ list.contents, aItemMin ≤ x ∧ x ≤ aItemMax := by
          rw [isFirst.exists_iff]
          exact not_le.mpr behind
        exact ⟨_, rfl, (outside_range outside).symm⟩

theorem initial_all (b : Bool) : OrderedSet.Initial fun _ : α => b := fun _ _ _ met => met

theorem removeBefore_contents (list : OrderedSet α) (aItemMin : α) :
    ∃ removed rest, removeBefore list aItemMin = some (removed, rest) ∧
      ∀ x, x ∈ rest.contents ↔ x ∈ list.contents ∧
        ((∃ y ∈ list.contents, aItemMin < y) → aItemMin < x) := by
  have behind : list.upperBound aItemMin ≠ list.size ↔ ∃ y ∈ list.contents, aItemMin < y := by
    rw [Ne, upperBound_eq_size]
    push Not
    rfl
  by_cases middle : list.upperBound aItemMin ≠ list.size ∧ list.upperBound aItemMin ≠ 0
  · have zero : list.bound (fun _ => false) = 0 := OrderedSet.bound_eq_zero.mpr fun _ _ => rfl
    have ordered : list.bound (fun _ => false) ≤ list.bound (· ≤ aItemMin) := by
      rw [zero]
      exact Nat.zero_le _
    rcases OrderedSet.eraseRange_of_bounds (initial_all false)
      (OrderedSet.initial_le aItemMin) ordered with ⟨rest, erases, same⟩
    rw [zero] at erases
    refine ⟨true, rest, ?_, ?_⟩
    · rw [removeBefore, if_pos middle, OrderedSet.upperBound, erases, Option.map_some]
    · intro x
      rw [same]
      simp only [Set.mem_ofPred_eq, Bool.false_eq_true, false_or,
        decide_eq_false_iff_not, not_le, behind.mp middle.1, forall_const]
  · refine ⟨false, list, if_neg middle, ?_⟩
    intro x
    refine ⟨fun member => ⟨member, fun some => ?_⟩, And.left⟩
    have none : list.upperBound aItemMin = 0 := by
      by_contra before
      exact middle ⟨behind.mpr some, before⟩
    exact not_le.mp (of_decide_eq_false (OrderedSet.bound_eq_zero.mp none x member))

theorem removeBehind_contents (list : OrderedSet α) (aItemMax : α) :
    ∃ removed rest, removeBehind list aItemMax = some (removed, rest) ∧
      ∀ x, x ∈ rest.contents ↔ x ∈ list.contents ∧ x ≤ aItemMax := by
  by_cases inside : list.upperBound aItemMax = list.size
  · refine ⟨false, list, if_neg (not_not.mpr inside), ?_⟩
    intro x
    exact ⟨fun member =>
      ⟨member, upperBound_eq_size.mp inside x member⟩, And.left⟩
  · have whole : list.bound (fun _ => true) = list.size :=
      OrderedSet.bound_eq_size.mpr fun _ _ => rfl
    have ordered : list.bound (· ≤ aItemMax) ≤ list.bound (fun _ => true) := by
      rw [whole]
      exact list.bound_le_size _
    rcases OrderedSet.eraseRange_of_bounds
      (OrderedSet.initial_le aItemMax) (initial_all true) ordered
      with ⟨rest, erases, same⟩
    rw [whole] at erases
    refine ⟨true, rest, ?_, ?_⟩
    · rw [removeBehind, if_pos inside, OrderedSet.upperBound, erases, Option.map_some]
    · intro x
      rw [same]
      simp only [Set.mem_ofPred_eq, decide_eq_true_eq, Bool.true_eq_false, or_false]

theorem reduceToRange_contents (this : SetWrapper α) (aItemMin aItemMax : α) :
    ∃ answer, this.reduceToRange aItemMin aItemMax = some answer ∧
      ∀ x, x ∈ answer.2.contents ↔ x ∈ this.contents ∧
        ((∃ y ∈ this.contents, aItemMin < y) → aItemMin < x) ∧ x ≤ aItemMax := by
  rcases this with ⟨_ | list⟩
  · refine ⟨_, rfl, fun x => ?_⟩
    exact ⟨fun member => absurd member List.not_mem_nil,
      fun member => absurd member.1 List.not_mem_nil⟩
  · rcases removeBefore_contents list aItemMin
      with ⟨before, later, removes, first⟩
    rcases removeBehind_contents later aItemMax with ⟨behind, rest, alsoRemoves, second⟩
    refine ⟨(before || behind, ⟨some rest⟩), ?_, ?_⟩
    · simp only [reduceToRange, intHasList, Option.isSome_some, if_true, intReduceToRange, removes,
        alsoRemoves, Option.bind_eq_bind, Option.bind_some]
    · intro x
      rw [contents_some, second, first, contents_some, and_assoc]

/-- Reducing gives the range exactly if the condition holds of the items. -/
theorem reducesToRange_iff (this : SetWrapper α) :
    this.ReducesToRange aItemMin aItemMax ↔ ReduceMeets this.contents aItemMin aItemMax := by
  rcases this.reduceToRange_contents aItemMin aItemMax with ⟨answer, reduces, leaves⟩
  constructor
  · rintro ⟨other, alsoReduces, same⟩
    rw [reduces] at alsoReduces
    cases alsoReduces
    rw [Set.ext_iff] at same
    constructor
    · intro behind member
      by_contra ordered
      have kept := (same aItemMin).mpr ⟨member, le_rfl, not_lt.mp ordered⟩
      exact absurd (((leaves aItemMin).mp kept).2.1 behind) (lt_irrefl _)
    · intro none x member before
      by_contra below
      have empty : ¬ ∃ y ∈ this.contents, aItemMin < y := by
        rintro ⟨y, inside, behind⟩
        exact absurd (none y inside) (not_le.mpr behind)
      have kept := (leaves x).mpr ⟨member, fun behind => absurd behind empty, not_lt.mp below⟩
      exact absurd ((same x).mp kept).2.1 (not_le.mpr before)
  · rintro ⟨loses, keeps⟩
    refine ⟨answer, reduces, Set.ext fun x => (leaves x).trans ?_⟩
    constructor
    · rintro ⟨member, above, below⟩
      refine ⟨member, ?_, below⟩
      by_contra before
      have none : ∀ y ∈ this.contents, y ≤ aItemMin := by
        intro y inside
        by_contra behind
        exact before (above ⟨y, inside, not_le.mp behind⟩).le
      exact absurd (keeps none x member (not_le.mp before)) (not_lt.mpr below)
    · rintro ⟨member, above, below⟩
      refine ⟨member, fun behind => ?_, below⟩
      rcases above.lt_or_eq with strict | rfl
      · exact strict
      · exact absurd (loses behind member) (not_lt.mpr below)

end SetWrapper

end Coast
