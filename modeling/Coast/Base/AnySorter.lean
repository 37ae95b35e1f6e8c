import Coast.Base.AnyArrayRuns
import Coast.Base.AnyReference
import Coast.Base.AnythingParser

/-!
# Sorting an array

The merge sort of an array is stable for a comparer that is a total preorder.
The comparer of `SortByKeyInArray` is one: it answers the same for both orders
of two slots without the path, and takes them for alike.
-/

namespace Coast

open InPlaceMergeSort

structure TotalPreorder {α : Type} (compare : α → α → Int) : Prop where
  total : ∀ a b, compare a b ≤ 0 ∨ compare b a ≤ 0
  trans : ∀ a b c, compare a b ≤ 0 → compare b c ≤ 0 → compare a c ≤ 0

def notBehind {α : Type} (compare : α → α → Int) (left right : α) : Bool :=
  decide (compare left right ≤ 0)

namespace TotalPreorder

variable {α β : Type} {compare : α → α → Int}

variable (preorder : TotalPreorder compare)
include preorder

theorem stableSort (items : List α) :
    StableSort (notBehind compare) items (items.mergeSort (notBehind compare)) := by
  apply mergeSort_stable
  · intro a b
    rw [Bool.or_eq_true]
    exact (preorder.total a b).imp decide_eq_true decide_eq_true
  · intro a b c ab bc
    exact decide_eq_true (preorder.trans a b c (of_decide_eq_true ab) (of_decide_eq_true bc))

theorem comap (key : β → α) : TotalPreorder fun left right => compare (key left) (key right) where
  total a b := preorder.total (key a) (key b)
  trans a b c := preorder.trans (key a) (key b) (key c)

theorem neg (odd : ∀ a b, compare b a = -compare a b) :
    TotalPreorder fun left right => -compare left right where
  total a b := by
    rw [← odd, ← odd]
    exact preorder.total b a
  trans a b c := by
    rw [← odd, ← odd, ← odd]
    exact fun ab bc => preorder.trans c b a bc ab

end TotalPreorder

theorem compareKeys_swap (left right : Bytes) :
    compareKeys right left = -compareKeys left right := by
  induction left generalizing right with
  | nil => cases right <;> rfl
  | cons a left ih =>
    cases right with
    | nil => rfl
    | cons b right =>
      rw [compareKeys, compareKeys]
      by_cases same : a = b
      · rw [if_pos same, if_pos same.symm, ih]
      · rw [if_neg same, if_neg (Ne.symm same)]
        split <;> split <;> first | rfl | (exfalso; bv_omega)

theorem compareKeys_le {left right : Bytes} : compareKeys left right ≤ 0 ↔ left ≤ right := by
  induction left generalizing right with
  | nil => cases right <;> simp [compareKeys]
  | cons a left ih =>
    cases right with
    | nil => simp [compareKeys]
    | cons b right =>
      rw [compareKeys, List.cons_le_cons_iff]
      split
      · rename_i same
        simp [same, ih]
      · split <;> simp_all

theorem compareKeys_preorder : TotalPreorder compareKeys where
  total a b := by
    rw [compareKeys_le, compareKeys_le]
    exact List.le_total a b
  trans a b c ab bc := compareKeys_le.mpr
    (List.le_trans (compareKeys_le.mp ab) (compareKeys_le.mp bc))

namespace AnyArrayImpl

variable {α : Type} [Inhabited α] {impl : AnyArrayImpl α}

omit [Inhabited α] in
theorem keyComparer_preorder : TotalPreorder (keyComparer (α := α)) :=
  compareKeys_preorder.comap Prod.fst

omit [Inhabited α] in
theorem reverseKeyComparer_preorder : TotalPreorder (reverseKeyComparer (α := α)) :=
  (compareKeys_preorder.neg compareKeys_swap).comap Prod.fst

/-- The slots are a stable sort of the slots before, and a key is found at the
place of the slot that carries it. -/
structure SortedFrom (compare : AnyKeyAssoc α → AnyKeyAssoc α → Int)
    (impl impl' : AnyArrayImpl α) : Prop where
  sorts : StableSort (notBehind compare) impl.slots impl'.slots
  found : ∀ key slot, NulFree key → key ≠ [] →
    (impl'.findIndex key 0 0 = some slot ↔ impl'.slots[slot]?.map Prod.fst = some key)

theorem Good.sortedFrom (good : impl.Good) {compare : AnyKeyAssoc α → AnyKeyAssoc α → Int}
    (preorder : TotalPreorder compare) :
    ∃ impl', impl.sortByComparer compare = some impl' ∧ SortedFrom compare impl impl' := by
  obtain ⟨impl', done, good', slots'⟩ := good.sortByComparer compare
  have sorts := preorder.stableSort impl.slots
  refine ⟨impl', done, ?_, good'.represents.found⟩
  rw [slots']
  exact sorts

/-- Each of the sorts makes a stable sort of the slots, and the keys are found
at their new places. -/
theorem sorts_sortedFrom (good : impl.Good) {compare : α → α → Int}
    (preorder : TotalPreorder compare) :
    (∃ impl', impl.sortByKey = some impl' ∧ SortedFrom keyComparer impl impl') ∧
    (∃ impl', impl.sortReverseByKey = some impl' ∧ SortedFrom reverseKeyComparer impl impl') ∧
    ∃ impl', impl.sortByAnyComparer compare = some impl' ∧
      SortedFrom (valueComparer compare) impl impl' :=
  ⟨good.sortedFrom keyComparer_preorder, good.sortedFrom reverseKeyComparer_preorder,
    good.sortedFrom (preorder.comap Prod.snd)⟩

def numberComparer (left right : Nat) : Int := (left : Int) - right

theorem numberComparer_preorder : TotalPreorder numberComparer := by
  constructor
  · intro a b
    unfold numberComparer
    omega
  · intro a b c
    unfold numberComparer
    omega

theorem sorts_sortedFrom_example : ∃ impl, run exampleRun empty = some impl ∧
    (∃ impl', impl.sortByKey = some impl' ∧ SortedFrom keyComparer impl impl') ∧
    (∃ impl', impl.sortReverseByKey = some impl' ∧ SortedFrom reverseKeyComparer impl impl') ∧
    ∃ impl', impl.sortByAnyComparer numberComparer = some impl' ∧
      SortedFrom (valueComparer numberComparer) impl impl' := by
  obtain ⟨impl, done, good, -⟩ := Good.run exampleRun empty_good (by decide +kernel)
  exact ⟨impl, done, sorts_sortedFrom good numberComparer_preorder⟩

end AnyArrayImpl

/-! ## Comparing what is found at a path -/

/-- What `AsLong` makes of a `double` and of the buffer at a place. -/
structure LongViews where
  double : Bytes → Int64
  buffer : Nat → Int64

namespace Heap

/-- `AsLong` by the kind of the implementation. -/
def asLong (views : LongViews) (heap : Heap) (any : Handle) (dflt : Int64) : Int64 :=
  match heap.impl any with
  | none => dflt
  | some (.long value) => value
  | some (.charPtr value) => (Coast.asLong value dflt).1
  | some (.double text) => views.double text
  | some (.voidBuf _) => views.buffer (any.getD 0)
  | some (.object address) => Int64.ofBitVec address
  | some (.array _) => dflt

end Heap

def AnyStringValueComparer.compare (heap : Heap) (left right : Handle) : Int :=
  compareKeys (heap.asString left) (heap.asString right)

def compareLongs (l r : Int64) : Int := if l < r then -1 else if r < l then 1 else 0

def AnyLongValueComparer.compare (views : LongViews) (heap : Heap) (left right : Handle) : Int :=
  compareLongs (heap.asLong views left 0) (heap.asLong views right 0)

def AnyReverseComparer.compare (ac : Handle → Handle → Int) (left right : Handle) : Int :=
  -ac left right

/-- What `left.LookupPath(intleft, lookup)` finds.  It makes no slot unless the
number of an index overflows. -/
def lookupValue (heap : Heap) (lookup : Bytes) (any : Handle) : Option Handle :=
  (Anything.lookupPath heap any lookup (ch '.') (ch ':')).2

def SpecialLookupComparer.compare (heap : Heap) (lookup : Bytes) (ac : Handle → Handle → Int)
    (left right : Handle) : Int :=
  match lookupValue heap lookup left, lookupValue heap lookup right with
  | none, some _ => 1
  | _, none => -1
  | some intleft, some intright => ac intleft intright

namespace AnySorter

inductive EMode where
  | asc
  | desc
  deriving DecidableEq, Repr

def valueComparer (views : LongViews) (heap : Heap) : EMode → Bool → Handle → Handle → Int
  | .asc, true => AnyLongValueComparer.compare views heap
  | .asc, false => AnyStringValueComparer.compare heap
  | .desc, true => AnyReverseComparer.compare (AnyLongValueComparer.compare views heap)
  | .desc, false => AnyReverseComparer.compare (AnyStringValueComparer.compare heap)

def sortByKeyInArray (views : LongViews) (heap : Heap) (sortFieldName : Bytes)
    (toSort : AnyArrayImpl Handle) (mode : EMode) (sortCritIsNumber : Bool) :
    Option (AnyArrayImpl Handle) :=
  toSort.sortByAnyComparer (SpecialLookupComparer.compare heap sortFieldName
    (valueComparer views heap mode sortCritIsNumber))

variable (views : LongViews) (heap : Heap)

theorem compareLongs_cases (l r : Int64) :
    (l.toInt < r.toInt ∧ compareLongs l r = -1) ∨ (r.toInt < l.toInt ∧ compareLongs l r = 1) ∨
      (l.toInt = r.toInt ∧ compareLongs l r = 0) := by
  unfold compareLongs
  by_cases less : l < r
  · exact Or.inl ⟨Int64.lt_iff_toInt_lt.mp less, if_pos less⟩
  · rw [if_neg less]
    rw [Int64.lt_iff_toInt_lt] at less
    by_cases more : r < l
    · exact Or.inr (Or.inl ⟨Int64.lt_iff_toInt_lt.mp more, if_pos more⟩)
    · rw [if_neg more]
      rw [Int64.lt_iff_toInt_lt] at more
      exact Or.inr (Or.inr ⟨by omega, rfl⟩)

theorem compareLongs_le {l r : Int64} : compareLongs l r ≤ 0 ↔ l.toInt ≤ r.toInt := by
  rcases compareLongs_cases l r with ⟨_, same⟩ | ⟨_, same⟩ | ⟨_, same⟩ <;> rw [same] <;> omega

theorem compareLongs_swap (l r : Int64) : compareLongs r l = -compareLongs l r := by
  rcases compareLongs_cases l r with ⟨_, _⟩ | ⟨_, _⟩ | ⟨_, _⟩ <;>
    rcases compareLongs_cases r l with ⟨_, _⟩ | ⟨_, _⟩ | ⟨_, _⟩ <;> omega

theorem compareLongs_preorder : TotalPreorder compareLongs where
  total a b := by
    rw [compareLongs_le, compareLongs_le]
    exact Int.le_total _ _
  trans a b c ab bc := compareLongs_le.mpr
    (Int.le_trans (compareLongs_le.mp ab) (compareLongs_le.mp bc))

theorem valueComparer_preorder (mode : EMode) (sortCritIsNumber : Bool) :
    TotalPreorder (valueComparer views heap mode sortCritIsNumber) := by
  cases mode with
  | asc =>
    cases sortCritIsNumber with
    | true => exact compareLongs_preorder.comap _
    | false => exact compareKeys_preorder.comap _
  | desc =>
    cases sortCritIsNumber with
    | true => exact (compareLongs_preorder.neg compareLongs_swap).comap _
    | false => exact (compareKeys_preorder.neg compareKeys_swap).comap _

theorem specialLookup_notBehind {lookup : Bytes} {ac : Handle → Handle → Int}
    {left right : Handle} :
    SpecialLookupComparer.compare heap lookup ac left right ≤ 0 ↔
      ∀ intright ∈ lookupValue heap lookup right,
        ∃ intleft ∈ lookupValue heap lookup left, ac intleft intright ≤ 0 := by
  unfold SpecialLookupComparer.compare
  cases lookupValue heap lookup left <;> cases lookupValue heap lookup right <;> simp

theorem specialLookup_preorder (lookup : Bytes) {ac : Handle → Handle → Int}
    (preorder : TotalPreorder ac) :
    TotalPreorder (SpecialLookupComparer.compare heap lookup ac) where
  total a b := by
    rw [specialLookup_notBehind, specialLookup_notBehind]
    cases lookupValue heap lookup a with
    | none => exact Or.inr nofun
    | some inta =>
      cases lookupValue heap lookup b with
      | none => exact Or.inl nofun
      | some intb => simpa using preorder.total inta intb
  trans a b c := by
    rw [specialLookup_notBehind, specialLookup_notBehind, specialLookup_notBehind]
    intro ab bc intc isC
    rcases bc intc isC with ⟨intb, isB, bc⟩
    rcases ab intb isB with ⟨inta, isA, ab⟩
    exact ⟨inta, isA, preorder.trans inta intb intc ab bc⟩

def hasPath (lookup : Bytes) (slot : AnyKeyAssoc Handle) : Bool :=
  (lookupValue heap lookup slot.2).isSome

def pathComparer (lookup : Bytes) (ac : Handle → Handle → Int)
    (left right : AnyKeyAssoc Handle) : Int :=
  ac ((lookupValue heap lookup left.2).getD none) ((lookupValue heap lookup right.2).getD none)

/-- The slots with the path come first, stably sorted by its values, and then
the others as they were. -/
theorem sortByKeyInArray_sorts {toSort : AnyArrayImpl Handle} (good : toSort.Good)
    (sortFieldName : Bytes) (mode : EMode) (sortCritIsNumber : Bool) :
    ∃ sorted having,
      sortByKeyInArray views heap sortFieldName toSort mode sortCritIsNumber = some sorted ∧
      sorted.slots = having ++ toSort.slots.filter (fun slot => !hasPath heap sortFieldName slot) ∧
      StableSort (notBehind (pathComparer heap sortFieldName
          (valueComparer views heap mode sortCritIsNumber)))
        (toSort.slots.filter (hasPath heap sortFieldName)) having := by
  have values := valueComparer_preorder views heap mode sortCritIsNumber
  obtain ⟨sorted, done, sorts, -⟩ := good.sortedFrom
    ((specialLookup_preorder heap sortFieldName values).comap Prod.snd)
  have split := sorts.split (hasPath heap sortFieldName) (by
      intro a b before has
      rcases Option.isSome_iff_exists.mp has with ⟨intright, isRight⟩
      rcases (specialLookup_notBehind heap).mp (of_decide_eq_true before) intright isRight with
        ⟨intleft, isLeft, -⟩
      exact Option.isSome_iff_exists.mpr ⟨intleft, isLeft⟩) (by
      intro a b lacks
      apply decide_eq_true
      apply (specialLookup_notBehind heap).mpr
      intro intright isRight
      rw [hasPath, isRight] at lacks
      cases lacks)
  refine ⟨sorted, _, done, split.1, split.2.congr ?_⟩
  intro a aIn b bIn
  rcases Option.isSome_iff_exists.mp (List.mem_filter.mp aIn).2 with ⟨inta, isA⟩
  rcases Option.isSome_iff_exists.mp (List.mem_filter.mp bIn).2 with ⟨intb, isB⟩
  have same : SpecialLookupComparer.compare heap sortFieldName
      (valueComparer views heap mode sortCritIsNumber) a.2 b.2 =
      pathComparer heap sortFieldName (valueComparer views heap mode sortCritIsNumber) a b := by
    unfold SpecialLookupComparer.compare pathComparer
    rw [isA, isB]
    rfl
  exact congrArg (fun order => decide (order ≤ 0)) same

def exampleViews : LongViews := ⟨fun _ => 0, fun _ => 0⟩

def exampleHeap : Heap := [.array [(lit "a", some 1)], .long 3]

def exampleSlots : List (AnyArrayImpl.Step Handle) :=
  [.at_ 0 fun _ => some 0, .at_ 1 fun _ => some 1, .at_ 2 fun _ => some 0]

theorem sortByKeyInArray_sorts_example : ∃ toSort : AnyArrayImpl Handle,
    AnyArrayImpl.run exampleSlots .empty = some toSort ∧ ∃ sorted having,
      sortByKeyInArray exampleViews exampleHeap (lit "a") toSort .desc true = some sorted ∧
      sorted.slots = having ++ toSort.slots.filter
        (fun slot => !hasPath exampleHeap (lit "a") slot) ∧
      StableSort (notBehind (pathComparer exampleHeap (lit "a")
          (valueComparer exampleViews exampleHeap .desc true)))
        (toSort.slots.filter (hasPath exampleHeap (lit "a"))) having := by
  obtain ⟨toSort, done, good, -⟩ :=
    AnyArrayImpl.Good.run exampleSlots AnyArrayImpl.empty_good (by decide +kernel)
  exact ⟨toSort, done, sortByKeyInArray_sorts exampleViews exampleHeap good (lit "a") .desc true⟩

end AnySorter

end Coast
