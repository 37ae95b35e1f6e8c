import Mathlib.Data.Set.Insert
import Mathlib.Tactic.Tauto

/-!
# Sets that are kept in order

A set is the list of its items, every item once and the least one first.  A
position is the number of items before it, and the ranges between two
positions are those of the items between two bounds.
-/

namespace Coast

structure OrderedSet (α : Type) [LinearOrder α] where
  items : List α
  sorted : items.Pairwise (· < ·)

namespace OrderedSet

variable {α : Type} [LinearOrder α]

def Initial (p : α → Bool) : Prop := ∀ x y, x < y → p y = true → p x = true

def empty : OrderedSet α := ⟨[], .nil⟩

def contents (this : OrderedSet α) : Set α := { x | x ∈ this.items }

def size (this : OrderedSet α) : Nat := this.items.length

def bound (this : OrderedSet α) (p : α → Bool) : Nat := this.items.countP p

/-- The position of the first item that is not before `x`. -/
def lowerBound (this : OrderedSet α) (x : α) : Nat := this.bound (· < x)

def upperBound (this : OrderedSet α) (x : α) : Nat := this.bound (· ≤ x)

def range (this : OrderedSet α) (first last : Nat) : List α := (this.items.take last).drop first

theorem sorted_around {items : List α} (sorted : items.Pairwise (· < ·)) (x : α) :
    (items.filter (· < x) ++ x :: items.filter (x < ·)).Pairwise (· < ·) := by
  apply List.pairwise_append.mpr
  refine ⟨sorted.filter _, List.pairwise_cons.mpr ⟨?_, sorted.filter _⟩, ?_⟩
  · intro y member
    exact of_decide_eq_true (List.mem_filter.mp member).2
  · intro y member z later
    have smaller : y < x := of_decide_eq_true (List.mem_filter.mp member).2
    rcases List.mem_cons.mp later with rfl | greater
    · exact smaller
    · exact smaller.trans (of_decide_eq_true (List.mem_filter.mp greater).2)

def insert (this : OrderedSet α) (x : α) : OrderedSet α :=
  ⟨this.items.filter (· < x) ++ x :: this.items.filter (x < ·), sorted_around this.sorted x⟩

def erase (this : OrderedSet α) (x : α) : OrderedSet α :=
  ⟨this.items.filter (· ≠ x), this.sorted.filter _⟩

def insertAll (this : OrderedSet α) (items : List α) : OrderedSet α := items.foldl insert this

theorem sorted_outside {items : List α} (sorted : items.Pairwise (· < ·))
    {first last : Nat} (ordered : first ≤ last) :
    (items.take first ++ items.drop last).Pairwise (· < ·) := by
  rw [← List.take_append_drop first items] at sorted
  have cut := List.pairwise_append.mp sorted
  have later : items.drop last = (items.drop first).drop (last - first) := by
    rw [List.drop_drop, Nat.add_sub_cancel' ordered]
  rw [later]
  refine List.pairwise_append.mpr ⟨cut.1, cut.2.1.drop, ?_⟩
  intro x before y behind
  exact cut.2.2 x before y (List.mem_of_mem_drop behind)

/-- Nothing is defined where the first position is behind the last one. -/
def eraseRange (this : OrderedSet α) (first last : Nat) : Option (OrderedSet α) :=
  if ordered : first ≤ last then
    some ⟨this.items.take first ++ this.items.drop last, sorted_outside this.sorted ordered⟩
  else none

theorem contents_empty : (empty : OrderedSet α).contents = ∅ := by
  ext x
  exact iff_of_false List.not_mem_nil id

theorem contents_insert (this : OrderedSet α) (x : α) :
    (this.insert x).contents = Insert.insert x this.contents := by
  ext y
  simp only [contents, insert, Set.mem_ofPred_eq, Set.mem_insert_iff,
    List.mem_append, List.mem_cons, List.mem_filter, decide_eq_true_eq]
  constructor
  · rintro (⟨member, -⟩ | same | ⟨member, -⟩)
    · exact .inr member
    · exact .inl same
    · exact .inr member
  · rintro (same | member)
    · exact .inr (.inl same)
    · rcases lt_trichotomy y x with smaller | same | greater
      · exact .inl ⟨member, smaller⟩
      · exact .inr (.inl same)
      · exact .inr (.inr ⟨member, greater⟩)

theorem contents_erase (this : OrderedSet α) (x : α) :
    (this.erase x).contents = this.contents \ {x} := by
  ext y
  simp only [contents, erase, Set.mem_ofPred_eq, List.mem_filter,
    decide_eq_true_eq, Set.mem_sdiff, Set.mem_singleton_iff, ne_eq]

theorem contents_insertAll (this : OrderedSet α) (items : List α) :
    (this.insertAll items).contents = this.contents ∪ { x | x ∈ items } := by
  induction items generalizing this with
  | nil =>
    ext x
    simp only [insertAll, List.foldl_nil, List.not_mem_nil, Set.mem_union,
      Set.mem_ofPred_eq, or_false]
  | cons head rest ih =>
    change ((this.insert head).insertAll rest).contents = _
    rw [ih, contents_insert]
    ext x
    simp only [Set.mem_union, Set.mem_insert_iff, Set.mem_ofPred_eq, List.mem_cons]
    tauto

variable {p q : α → Bool}

theorem initial_lt (x : α) : Initial (· < x) := by
  intro y z before smaller
  exact decide_eq_true (before.trans (of_decide_eq_true smaller))

theorem initial_le (x : α) : Initial (· ≤ x) := by
  intro y z before smaller
  exact decide_eq_true (before.le.trans (of_decide_eq_true smaller))

theorem countP_of_initial {items : List α} (initial : Initial p) (sorted : items.Pairwise (· < ·)) :
    items.take (items.countP p) = items.filter p ∧
      items.drop (items.countP p) = items.filter (!p ·) := by
  induction items with
  | nil => exact ⟨rfl, rfl⟩
  | cons head rest ih =>
    rcases List.pairwise_cons.mp sorted with ⟨least, others⟩
    cases met : p head with
    | true =>
      rw [List.countP_cons_of_pos met, List.filter_cons_of_pos met,
        List.filter_cons_of_neg (by rw [met]; decide),
        List.take_succ_cons, List.drop_succ_cons]
      exact ⟨congrArg _ (ih others).1, (ih others).2⟩
    | false =>
      have none : ∀ x ∈ head :: rest, ¬ p x = true := by
        intro x member meets
        rcases List.mem_cons.mp member with rfl | behind
        · rw [met] at meets
          cases meets
        · rw [initial head x (least x behind) meets] at met
          cases met
      rw [List.countP_eq_zero.mpr none, List.take_zero, List.drop_zero,
        List.filter_eq_nil_iff.mpr none]
      refine ⟨rfl, (List.filter_eq_self.mpr ?_).symm⟩
      intro x member
      rw [Bool.not_eq_true', Bool.eq_false_iff]
      exact none x member

theorem take_bound (this : OrderedSet α) (initial : Initial p) :
    this.items.take (this.bound p) = this.items.filter p :=
  (countP_of_initial initial this.sorted).1

theorem drop_bound (this : OrderedSet α) (initial : Initial p) :
    this.items.drop (this.bound p) = this.items.filter (!p ·) :=
  (countP_of_initial initial this.sorted).2

variable {this : OrderedSet α}

/-- The item at the position is the least one that misses the bound. -/
theorem item_at_bound (initial : Initial p) {first : α}
    (found : this.items[this.bound p]? = some first) :
    first ∈ this.contents ∧ p first = false ∧ ∀ x ∈ this.contents, p x = false → first ≤ x := by
  have head : (this.items.filter (!p ·)).head? = some first := by
    rw [← this.drop_bound initial, List.head?_drop, found]
  rcases List.head?_eq_some_iff.mp head with ⟨rest, same⟩
  have member : first ∈ this.items.filter (!p ·) := by
    rw [same]
    exact List.mem_cons_self
  rcases List.mem_filter.mp member with ⟨inside, misses⟩
  refine ⟨inside, by rwa [Bool.not_eq_true'] at misses, ?_⟩
  intro x contained missed
  have behind : x ∈ this.items.filter (!p ·) := by
    rw [List.mem_filter, missed]
    exact ⟨contained, rfl⟩
  have sorted := this.sorted.filter (!p ·)
  rw [same] at behind sorted
  rcases List.mem_cons.mp behind with rfl | later
  · exact le_rfl
  · exact ((List.pairwise_cons.mp sorted).1 x later).le

theorem no_item_at_bound (initial : Initial p) :
    this.items[this.bound p]? = none ↔ ∀ x ∈ this.contents, p x = true := by
  rw [← List.head?_drop, this.drop_bound initial, List.head?_eq_none_iff, List.filter_eq_nil_iff]
  simp only [Bool.not_eq_true, Bool.not_eq_false']
  rfl

theorem bound_eq_size : this.bound p = this.size ↔ ∀ x ∈ this.contents, p x = true :=
  List.countP_eq_length

theorem bound_eq_zero : this.bound p = 0 ↔ ∀ x ∈ this.contents, p x = false := by
  rw [bound, List.countP_eq_zero]
  simp only [Bool.not_eq_true]
  rfl

theorem bound_le_size (this : OrderedSet α) (p : α → Bool) : this.bound p ≤ this.size :=
  List.countP_le_length

theorem bound_le_iff (below : Initial p) (above : Initial q) :
    this.bound p ≤ this.bound q ↔ ∀ x ∈ this.contents, p x = true → q x = true := by
  constructor
  · intro ordered x member meets
    have early : x ∈ this.items.take (this.bound p) := by
      rw [this.take_bound below]
      exact List.mem_filter.mpr ⟨member, meets⟩
    have late := List.take_subset_take_left this.items ordered early
    rw [this.take_bound above] at late
    exact (List.mem_filter.mp late).2
  · exact List.countP_mono_left

theorem range_of_bounds (below : Initial p)
    (above : Initial q) (weaker : ∀ x, p x = true → q x = true) :
    this.range (this.bound p) (this.bound q) = this.items.filter fun x => q x && !p x := by
  have counted : this.items.countP p = (this.items.filter q).countP p := by
    rw [List.countP_filter]
    apply List.countP_congr
    intro x _
    rw [Bool.and_eq_true]
    exact ⟨fun met => ⟨met, weaker x met⟩, And.left⟩
  rw [range, this.take_bound above, bound, counted,
    (countP_of_initial below (this.sorted.filter q)).2, List.filter_filter]
  exact List.filter_congr fun x _ => Bool.and_comm _ _

theorem eraseRange_of_bounds (below : Initial p)
    (above : Initial q) (ordered : this.bound p ≤ this.bound q) :
    ∃ after, this.eraseRange (this.bound p) (this.bound q) = some after ∧
      after.contents = { x | x ∈ this.contents ∧ (p x = true ∨ q x = false) } := by
  refine ⟨_, dif_pos ordered, ?_⟩
  ext x
  simp only [contents, Set.mem_ofPred_eq, List.mem_append, this.take_bound below,
    this.drop_bound above, List.mem_filter, Bool.not_eq_true']
  exact and_or_left.symm

end OrderedSet

end Coast
