import Coast.Base.AnyArrayRuns

/-!
# The assertions of the array implementation

What `AnyIndTable` and `AnyArrayImpl` assert on the way through an operation.
`AnyIndTable::InsertReserve` asserts its capacity for a size that has grown
already, so it can fail where there is room; nothing else can.  The constant
`At` makes the index table grow without the array.
-/

namespace Coast

open InPlaceMergeSort Option Nat
open List hiding count

namespace AnyIndTable

def InitIndicesAsserts (slot : Nat) (t : AnyIndTable) : Prop := t.fSize ≤ slot

def ExpandAsserts (slot : Nat) (t : AnyIndTable) : Prop :=
  t.fCapacity ≤ slot ∧ t.InitIndicesAsserts slot

def AtAsserts (slot : Int) (t : AnyIndTable) : Prop :=
  let grown := if t.fCapacity ≤ slot.toNat then t.expand slot.toNat else t
  0 ≤ slot ∧ (t.fCapacity ≤ slot.toNat → t.ExpandAsserts slot.toNat) ∧
    (grown.fSize ≤ slot.toNat → grown.InitIndicesAsserts slot.toNat) ∧
    slot.toNat < (t.at_ slot.toNat).1.fSize

def RemoveAsserts (slot : Int) (t : AnyIndTable) : Prop := 0 ≤ slot ∧ slot < t.fSize

def InsertReserveAsserts (pos size : Nat) (t : AnyIndTable) : Prop :=
  t.fSize + pos ≤ t.fCapacity ∧ t.fSize + size ≤ t.fCapacity

def capacityAt (slot : Nat) (t : AnyIndTable) : Nat :=
  if t.fCapacity ≤ slot then
    (if t.fCapacity * 2 ≤ slot then slot else t.fCapacity) * 2
  else t.fCapacity

variable {t : AnyIndTable} {bound : Nat}

theorem fSize_le_fCapacity (t : AnyIndTable) : t.fSize ≤ t.fCapacity := le_add_right _ _

variable (ok : t.Ok bound)
include ok

theorem Ok.fSize_at (slot : Nat) :
    (t.at_ slot).1.fSize = max t.fSize (slot + 1) := by
  obtain ⟨moved, index, length, -, -⟩ :=
    ok.at_ (le_add_right bound (slot + 1)) (show slot < _ by omega)
  have size := congrArg List.length index
  rw [length_append, length] at size
  unfold fSize at size ⊢
  omega

theorem Ok.atAsserts (slot : Nat) : t.AtAsserts slot := by
  have few := t.fSize_le_fCapacity
  refine ⟨by omega, fun full => ⟨full, le_trans few full⟩, fun new => new, ?_⟩
  rw [Int.toNat_natCast, ok.fSize_at]
  omega

theorem Ok.fCapacity_at (slot : Nat) :
    (t.at_ slot).1.fCapacity = t.capacityAt slot := by
  have few := t.fSize_le_fCapacity
  have positive := ok.capacity
  have more : bound ≤ bound + slot + 1 := by omega
  unfold AnyIndTable.at_ capacityAt
  by_cases full : t.fCapacity ≤ slot
  · simp only [if_pos full]
    set cap := if t.fCapacity * 2 ≤ slot then slot else t.fCapacity with capDef
    have room : t.fCapacity ≤ cap * 2 ∧ slot < cap * 2 := by
      rw [capDef]
      split <;> omega
    obtain ⟨emptyOk, capacity⟩ := ok.initEmpty room.1
    obtain ⟨-, size, same⟩ := emptyOk.initIndices slot _
      (by rw [capacity]; exact room.2) (le_trans few full) more (by omega)
    have expanded : t.expand slot = (t.initEmpty (cap * 2)).initIndices slot := rfl
    rw [expanded, size, if_neg (by omega), same, capacity]
  · simp only [if_neg full]
    split
    · rename_i new
      exact (ok.initIndices slot _ (by omega) new more (by omega)).2.2
    · rfl

end AnyIndTable

namespace AnyArrayImpl

variable {α : Type} [Inhabited α] {impl impl' : AnyArrayImpl α}

def ExpandAsserts (newsize : Nat) (impl : AnyArrayImpl α) : Prop :=
  (impl.expand newsize).fCapacity % arrayBufSize = 0 ∧
    newsize ≤ (impl.expand newsize).fCapacity / arrayBufSize * arrayBufSize

def AtAsserts (slot : Int) (impl : AnyArrayImpl α) : Prop :=
  let newsz := (slot + 1).toNat
  (impl.fSize < newsz → impl.fCapacity ≤ newsz →
    ({ impl with fSize := newsz } : AnyArrayImpl α).ExpandAsserts newsz) ∧
  impl.fInd.AtAsserts slot

def AtKeyAsserts (key : Option Bytes) (impl : AnyArrayImpl α) : Prop :=
  (impl.lookKey ((key.map cstr).getD [])).2 = none → impl.fInd.AtAsserts impl.fSize ∧
    AtAsserts impl.fSize { impl with fInd := (impl.fInd.at_ impl.fSize).1 }

def RemoveAsserts (slot : Int) (impl : AnyArrayImpl α) : Prop :=
  0 ≤ slot ∧ slot < impl.fSize → impl.fInd.AtAsserts slot ∧ impl.fInd.RemoveAsserts slot

def EraseLoopAsserts (first : Nat) : Nat → AnyArrayImpl α → Prop
  | 0, _ => True
  | count + 1, impl =>
    impl.RemoveAsserts ((first + count : Nat) : Int) ∧
      ∀ impl' ∈ impl.remove ((first + count : Nat) : Int), EraseLoopAsserts first count impl'

def EraseAsserts (first last : Int) (impl : AnyArrayImpl α) : Prop :=
  0 ≤ first ∧ first ≤ last ∧ last ≤ impl.fSize →
    EraseLoopAsserts first.toNat (last - first).toNat impl

def InsertReserveAsserts (pos size : Nat) (impl : AnyArrayImpl α) : Prop :=
  impl.AtAsserts (impl.fSize + size - 1) ∧
    (impl.fInd.at_ (impl.fSize + size - 1)).1.InsertReserveAsserts pos size

def SortAsserts (compare : AnyKeyAssoc α → AnyKeyAssoc α → Int) (impl : AnyArrayImpl α) : Prop :=
  SortPartSafe (fun left right => compare (impl.assocAt left) (impl.assocAt right) ≤ 0)
    0 (impl.fSize - 1) impl.fInd.fIndexTable

def CloneAsserts (clone : α → α) (impl : AnyArrayImpl α) : List Nat → AnyArrayImpl α → Prop
  | [], _ => True
  | i :: rest, pImpl =>
    pImpl.AtKeyAsserts (impl.slotName i) ∧
      ∀ next ∈ pImpl.atKey (impl.slotName i) fun _ => clone (impl.valueAt i),
        CloneAsserts clone impl rest next

def StepAsserts : Step α → AnyArrayImpl α → Prop
  | .at_ slot _, impl => impl.AtAsserts slot
  | .atKey key _, impl => impl.AtKeyAsserts key
  | .remove slot, impl => impl.RemoveAsserts slot
  | .erase first last, impl => impl.EraseAsserts first last
  | .insertReserve pos size, impl => impl.InsertReserveAsserts pos size
  | .sortByKey, impl => impl.SortAsserts keyComparer
  | .sortReverseByKey, impl => impl.SortAsserts reverseKeyComparer
  | .sortByAnyComparer compare, impl => impl.SortAsserts (valueComparer compare)
  | .recreateKeyTable, _ => True
  | .deepClone clone, impl => CloneAsserts clone impl (List.range impl.fSize) empty

/-- A call on an array: an operation, or `At` of a constant array. -/
inductive Call (α : Type) where
  | step (s : Step α)
  | constAt (slot : Nat)

/-- `At(slot) const`.  `fInd` is a pointer, so `IntAt` calls the `At` that
makes the index table grow; a place behind the buffers cannot be read. -/
def constAt (slot : Nat) (impl : AnyArrayImpl α) : Option (AnyArrayImpl α) :=
  (impl.fInd.at_ slot).2.bind fun place =>
  if place < impl.fContents.length then some { impl with fInd := (impl.fInd.at_ slot).1 } else none

def call : Call α → AnyArrayImpl α → Option (AnyArrayImpl α)
  | .step s, impl => step s impl
  | .constAt slot, impl => impl.constAt slot

def CallAsserts : Call α → AnyArrayImpl α → Prop
  | .step s, impl => StepAsserts s impl
  | .constAt slot, impl => impl.fInd.AtAsserts slot

def ContainsAsserts (impl : AnyArrayImpl α) : Prop :=
  ∀ i < impl.fSize, ∃ place, impl.fInd.constAt i = some place ∧ place < impl.fCapacity

/-- No assertion fails in a run, nor in a call of `Contains` at any time. -/
def NoneFails : List (Call α) → AnyArrayImpl α → Prop
  | [], impl => impl.ContainsAsserts
  | c :: calls, impl =>
    impl.ContainsAsserts ∧ CallAsserts c impl ∧ ∀ impl' ∈ call c impl, NoneFails calls impl'

/-- The capacity that `InsertReserve` asserts, with the size counted that the
index table has then. -/
def Fits (impl : AnyArrayImpl α) : Call α → Prop
  | .step (.insertReserve pos size) =>
    0 < impl.fSize + size ∧ max impl.fInd.fSize (impl.fSize + size) + max pos size ≤
      impl.fInd.capacityAt (impl.fSize + size - 1)
  | _ => True

def FitsRun : List (Call α) → AnyArrayImpl α → Prop
  | [], _ => True
  | c :: calls, impl => Fits impl c ∧ ∀ impl' ∈ call c impl, FitsRun calls impl'

/-! ## What the assertions rest on -/

/-- The buffers and the index table fit together.  Nothing is said of keys
and values, so the slips of `At(key)` keep it. -/
structure Roomy (impl : AnyArrayImpl α) : Prop where
  buffers : impl.fContents.length = impl.fCapacity
  whole : arrayBufSize ∣ impl.fCapacity
  positive : 0 < impl.fCapacity
  ind : impl.fInd.Ok impl.fCapacity

structure Sized (impl : AnyArrayImpl α) : Prop extends Roomy impl where
  size : impl.fSize ≤ impl.fInd.fSize

def bare (impl : AnyArrayImpl α) : AnyArrayImpl Unit where
  fContents := List.replicate impl.fContents.length .empty
  fKeys := none
  fInd := impl.fInd
  fCapacity := impl.fCapacity
  fSize := impl.fSize

omit [Inhabited α] in
theorem Roomy.sound (roomy : impl.Roomy) : impl.bare.Sound where
  buffers := length_replicate.trans roomy.buffers
  whole := roomy.whole
  positive := roomy.positive
  ind := roomy.ind
  clean place _ := by
    simp only [assocAt, bare, getElem?_replicate]
    split <;> rfl

theorem bare_expand (newsize : Nat) (impl : AnyArrayImpl α) :
    (impl.expand newsize).bare = impl.bare.expand newsize := by
  simp only [bare, expand, length_append, length_replicate, replicate_add]
  rfl

theorem bare_address (slot : Nat) (impl : AnyArrayImpl α) :
    (impl.address slot).1.bare = (impl.bare.address slot).1 := by
  by_cases new : impl.fSize < slot + 1
  · have bareNew : impl.bare.fSize < slot + 1 := new
    by_cases full : impl.fCapacity ≤ slot + 1
    · have bareFull : impl.bare.fCapacity ≤ slot + 1 := full
      have grown := bare_expand (slot + 1) { impl with fSize := slot + 1 }
      simp only [address, if_pos new, if_pos full, if_pos bareNew, if_pos bareFull]
      exact congrArg (fun big : AnyArrayImpl Unit =>
        { big with fInd := (impl.fInd.at_ slot).1 }) grown
    · have bareFull : ¬impl.bare.fCapacity ≤ slot + 1 := full
      simp only [address, if_pos new, if_neg full, if_pos bareNew, if_neg bareFull]
      rfl
  · have bareNew : ¬impl.bare.fSize < slot + 1 := new
    simp only [address, if_neg new, if_neg bareNew]
    rfl

theorem empty_sized : (empty : AnyArrayImpl α).Sized :=
  ⟨⟨empty_good.buffers, empty_good.whole, empty_good.positive, empty_good.ind⟩,
    le_of_eq empty_good.size.symm⟩

/-! ## Every operation keeps the sizes -/

omit [Inhabited α] in
theorem setContent_inside {place : Nat} {write : AnyKeyAssoc α → AnyKeyAssoc α}
    (written : impl.setContent place write = some impl') : place < impl.fContents.length := by
  unfold setContent at written
  split at written
  · assumption
  · cases written

omit [Inhabited α] in
theorem Roomy.write (roomy : impl.Roomy) {place : Nat} {write : AnyKeyAssoc α → AnyKeyAssoc α}
    (written : impl.setContent place write = some impl') :
    impl'.Roomy ∧ impl'.fInd = impl.fInd ∧ impl'.fSize = impl.fSize := by
  rw [setContent, if_pos (setContent_inside written)] at written
  cases written
  exact ⟨⟨(length_modify ..).trans roomy.buffers, roomy.whole, roomy.positive, roomy.ind⟩, rfl, rfl⟩

theorem Roomy.at_ (roomy : impl.Roomy) (fits : impl.fSize ≤ impl.fInd.fSize) {slot : Nat}
    {write : α → α} (done : impl.at_ slot write = some impl') :
    impl'.Roomy ∧ impl'.fSize = max impl.fSize (slot + 1) ∧
      impl'.fInd.fSize = max impl.fInd.fSize (slot + 1) := by
  obtain ⟨big, place, addressed, sound, -, grown, -, size, -⟩ := roomy.sound.address fits slot
  obtain rfl : (impl.address slot).1.bare = big := by
    rw [bare_address, addressed]
  have length := congrArg List.length grown
  rw [length_append, length_replicate, slots_length, slots_length] at length
  have mid : (impl.address slot).1.Roomy :=
    ⟨length_replicate.symm.trans sound.buffers, sound.whole, sound.positive, sound.ind⟩
  obtain ⟨place, -, written⟩ := bind_eq_some_iff.mp done
  obtain ⟨roomy', sameInd, sameSize⟩ := mid.write written
  refine ⟨roomy', sameSize.trans size, ?_⟩
  rw [sameInd]
  change (impl.address slot).1.fInd.fSize = impl.fInd.fSize + (slot + 1 - impl.fInd.fSize) at length
  omega

theorem Sized.at_ (sized : impl.Sized) {slot : Nat} {write : α → α}
    (done : impl.at_ slot write = some impl') :
    impl'.Sized ∧ impl'.fSize = max impl.fSize (slot + 1) := by
  obtain ⟨roomy', size, indSize⟩ := sized.toRoomy.at_ sized.size done
  refine ⟨⟨roomy', ?_⟩, size⟩
  rw [indSize, size]
  exact max_le_max_right _ sized.size

theorem Sized.atKey (sized : impl.Sized) {key : Option Bytes} {write : α → α}
    (done : impl.atKey key write = some impl') : impl'.Sized := by
  unfold AnyArrayImpl.atKey at done
  simp only at done
  split at done
  · obtain ⟨keys, -, done⟩ := bind_eq_some_iff.mp done
    obtain ⟨place, placed, done⟩ := bind_eq_some_iff.mp done
    obtain ⟨mid, written, done⟩ := bind_eq_some_iff.mp done
    have below := setContent_inside written
    have room : impl.fSize < impl.fCapacity := by
      by_contra full
      have behind := sized.ind.at_outside (not_lt.mp full) placed
      rw [← sized.buffers] at behind
      exact absurd below (not_lt.mpr behind)
    obtain ⟨moved, -, -, indOk, -⟩ := sized.ind.at_ (le_refl _) room
    have grown : Roomy { impl with fKeys := some keys, fInd := (impl.fInd.at_ impl.fSize).1 } :=
      ⟨sized.buffers, sized.whole, sized.positive, indOk⟩
    obtain ⟨midRoomy, sameInd, sameSize⟩ := grown.write written
    have midInd : mid.fInd.fSize = max impl.fInd.fSize (impl.fSize + 1) := by
      rw [sameInd]
      exact sized.ind.fSize_at _
    change mid.fSize = impl.fSize at sameSize
    obtain ⟨roomy', size, indSize⟩ := midRoomy.at_ (by omega) done
    exact ⟨roomy', by omega⟩
  · have keyed (keys : AnyKeyTable) : Roomy { impl with fKeys := some keys } :=
      ⟨sized.buffers, sized.whole, sized.positive, sized.ind⟩
    obtain ⟨roomy', sameInd, sameSize⟩ := (keyed _).write done
    refine ⟨roomy', ?_⟩
    rw [sameInd, sameSize]
    exact sized.size

theorem Sized.remove (sized : impl.Sized) {slot : Int}
    (done : impl.remove slot = some impl') : impl'.Sized := by
  unfold AnyArrayImpl.remove at done
  split at done
  · rename_i inside
    obtain ⟨place, -, done⟩ := bind_eq_some_iff.mp done
    obtain ⟨cleared, written, rfl⟩ := map_eq_some_iff.mp done
    obtain ⟨roomy', sameInd, sameSize⟩ := sized.toRoomy.write written
    have size : cleared.fSize ≤ cleared.fInd.fSize := by
      rw [sameInd, sameSize]
      exact sized.size
    have few : slot.toNat < cleared.fInd.fSize := by omega
    refine ⟨⟨roomy'.buffers, roomy'.whole, roomy'.positive, roomy'.ind.remove _ few⟩, ?_⟩
    change cleared.fSize - 1 ≤ (cleared.fInd.fIndexTable.eraseIdx slot.toNat).length
    rw [length_eraseIdx_of_lt few]
    exact Nat.sub_le_sub_right size 1
  · cases done
    exact sized

theorem Sized.eraseLoop (first count : Nat) (sized : impl.Sized)
    (done : eraseLoop first count impl = some impl') : impl'.Sized := by
  induction count generalizing impl with
  | zero =>
    cases done
    exact sized
  | succ count ih =>
    obtain ⟨next, removed, done⟩ := bind_eq_some_iff.mp done
    exact ih (sized.remove removed) done

section

variable (sized : impl.Sized)
include sized

omit [Inhabited α] in
theorem Sized.reorder {index : List Nat}
    (same : index.Perm impl.fInd.fIndexTable) (fKeys : Option AnyKeyTable) :
    Sized { impl with fInd := { impl.fInd with fIndexTable := index }, fKeys := fKeys } :=
  ⟨⟨sized.buffers, sized.whole, sized.positive, sized.ind.reorder same⟩,
    sized.size.trans_eq same.length_eq.symm⟩

theorem Sized.recreateKeyTable
    (done : impl.recreateKeyTable = some impl') : impl'.Sized := by
  unfold AnyArrayImpl.recreateKeyTable at done
  split at done
  · cases done
    exact sized
  · obtain ⟨keys, -, rfl⟩ := map_eq_some_iff.mp done
    exact sized.reorder (List.Perm.refl _) (some keys)

theorem Sized.insertReserve {pos size : Nat}
    (done : impl.insertReserve pos size = some impl') : impl'.Sized := by
  unfold AnyArrayImpl.insertReserve at done
  split at done
  · rename_i inside
    obtain ⟨grown, addressed, rfl⟩ := map_eq_some_iff.mp done
    obtain ⟨sized', newSize⟩ := sized.at_ addressed
    have perm := AnyIndTable.insertReserve_perm grown.fInd pos size (by
      have enough := sized'.size
      omega)
    exact sized'.reorder perm _
  · cases done

theorem Sized.sortByComparer {compare : AnyKeyAssoc α → AnyKeyAssoc α → Int}
    (done : impl.sortByComparer compare = some impl') : impl'.Sized := by
  refine Sized.recreateKeyTable (sized.reorder ?_ impl.fKeys) done
  have front : (impl.fInd.fIndexTable.take impl.fSize).length = impl.fSize :=
    length_take_of_le sized.size
  have sorted := @sortPart_front _
    (fun left right => decide (compare (impl.assocAt left) (impl.assocAt right) ≤ 0))
    (impl.fInd.fIndexTable.take impl.fSize) (impl.fInd.fIndexTable.drop impl.fSize)
  rw [front, take_append_drop] at sorted
  rw [sorted]
  exact ((mergeSort_perm _ _).append_right _).trans (List.Perm.of_eq (take_append_drop _ _))

end

theorem Sized.cloneLoop (clone : α → α) (items : List Nat) {pImpl : AnyArrayImpl α}
    (sized : pImpl.Sized)
    (done : items.foldlM (fun pImpl i =>
      pImpl.atKey (impl.slotName i) fun _ => clone (impl.valueAt i)) pImpl = some impl') :
    impl'.Sized := by
  induction items generalizing pImpl with
  | nil =>
    cases done
    exact sized
  | cons i items ih =>
    obtain ⟨next, added, done⟩ := bind_eq_some_iff.mp done
    exact ih (sized.atKey added) done

theorem Sized.step (sized : impl.Sized) {s : Step α} (done : step s impl = some impl') :
    impl'.Sized := by
  cases s with
  | at_ slot write => exact (sized.at_ done).1
  | atKey key write => exact sized.atKey done
  | remove slot => exact sized.remove done
  | erase first last =>
    unfold AnyArrayImpl.step AnyArrayImpl.erase at done
    simp only at done
    split at done
    · exact sized.eraseLoop _ _ done
    · cases done
      exact sized
  | insertReserve pos size => exact sized.insertReserve done
  | sortByKey => exact sized.sortByComparer done
  | sortReverseByKey => exact sized.sortByComparer done
  | sortByAnyComparer compare => exact sized.sortByComparer done
  | recreateKeyTable => exact sized.recreateKeyTable done
  | deepClone clone => exact empty_sized.cloneLoop clone _ done

omit [Inhabited α] in
theorem Sized.constAt (sized : impl.Sized) {slot : Nat}
    (done : impl.constAt slot = some impl') : impl'.Sized := by
  obtain ⟨place, placed, done⟩ := bind_eq_some_iff.mp done
  split at done
  · rename_i below
    cases done
    have room : slot < impl.fCapacity := by
      by_contra full
      have behind := sized.ind.at_outside (not_lt.mp full) placed
      rw [← sized.buffers] at behind
      exact absurd below (not_lt.mpr behind)
    obtain ⟨moved, -, -, indOk, -⟩ := sized.ind.at_ (le_refl _) room
    refine ⟨⟨sized.buffers, sized.whole, sized.positive, indOk⟩, ?_⟩
    rw [sized.ind.fSize_at]
    exact le_trans sized.size (le_max_left _ _)
  · cases done

theorem Sized.call (sized : impl.Sized) {c : Call α} (done : call c impl = some impl') :
    impl'.Sized := by
  cases c with
  | step s => exact sized.step done
  | constAt slot => exact sized.constAt done

/-! ## The assertions of a call -/

theorem expandAsserts (newsize : Nat) (impl : AnyArrayImpl α) : impl.ExpandAsserts newsize := by
  simp only [ExpandAsserts, expand, adjustCapacity, arrayBufSize]
  split <;> omega

theorem atAsserts {bound : Nat} (ok : impl.fInd.Ok bound) (slot : Nat) : impl.AtAsserts slot :=
  ⟨fun _ _ => expandAsserts _ _, ok.atAsserts slot⟩

theorem Sized.atKeyAsserts (sized : impl.Sized) (key : Option Bytes) : impl.AtKeyAsserts key := by
  intro _
  obtain ⟨moved, -, -, indOk, -⟩ :=
    sized.ind.at_ (le_add_right _ (impl.fSize + 1)) (show impl.fSize < _ by omega)
  exact ⟨sized.ind.atAsserts _, atAsserts indOk _⟩

omit [Inhabited α] in
theorem Sized.removeAsserts (sized : impl.Sized) (slot : Int) : impl.RemoveAsserts slot := by
  rintro ⟨positive, inside⟩
  rw [← Int.toNat_of_nonneg positive]
  have few := sized.size
  exact ⟨sized.ind.atAsserts _, by omega, by omega⟩

theorem Sized.eraseLoopAsserts (first count : Nat) (sized : impl.Sized) :
    EraseLoopAsserts first count impl := by
  induction count generalizing impl with
  | zero => trivial
  | succ count ih =>
    exact ⟨sized.removeAsserts _, fun next removed => ih (sized.remove removed)⟩

theorem Sized.sortAsserts (sized : impl.Sized) (compare : AnyKeyAssoc α → AnyKeyAssoc α → Int) :
    impl.SortAsserts compare := by
  have size := sized.size
  unfold AnyIndTable.fSize at size
  exact sortPart_safe _ _ _ (by omega)

theorem Sized.cloneAsserts (clone : α → α) (items : List Nat) {pImpl : AnyArrayImpl α}
    (sized : pImpl.Sized) : CloneAsserts clone impl items pImpl := by
  induction items generalizing pImpl with
  | nil => trivial
  | cons i items ih => exact ⟨sized.atKeyAsserts _, fun next added => ih (sized.atKey added)⟩

theorem Sized.insertReserveAsserts_iff (sized : impl.Sized) (pos size : Nat) :
    impl.InsertReserveAsserts pos size ↔ Fits impl (.step (.insertReserve pos size)) := by
  have grown := sized.ind.fSize_at (impl.fSize + size - 1)
  have capacity := sized.ind.fCapacity_at (impl.fSize + size - 1)
  unfold InsertReserveAsserts AnyIndTable.InsertReserveAsserts Fits
  rw [grown, capacity]
  constructor
  · rintro ⟨⟨-, positive, -⟩, fits⟩
    omega
  · rintro ⟨any, fits⟩
    refine ⟨?_, by omega⟩
    rw [show (impl.fSize + size - 1 : Int) = (impl.fSize + size - 1 : Nat) by omega]
    exact atAsserts sized.ind _

theorem Sized.callAsserts_iff (sized : impl.Sized) (c : Call α) :
    CallAsserts c impl ↔ Fits impl c := by
  cases c with
  | constAt slot => exact iff_true_intro (sized.ind.atAsserts slot)
  | step s =>
    cases s with
    | insertReserve pos size => exact sized.insertReserveAsserts_iff pos size
    | at_ slot write => exact iff_true_intro (atAsserts sized.ind slot)
    | atKey key write => exact iff_true_intro (sized.atKeyAsserts key)
    | remove slot => exact iff_true_intro (sized.removeAsserts slot)
    | erase first last => exact iff_true_intro fun _ => sized.eraseLoopAsserts _ _
    | sortByKey => exact iff_true_intro (sized.sortAsserts keyComparer)
    | sortReverseByKey => exact iff_true_intro (sized.sortAsserts reverseKeyComparer)
    | sortByAnyComparer compare => exact iff_true_intro (sized.sortAsserts (valueComparer compare))
    | recreateKeyTable => exact Iff.rfl
    | deepClone clone => exact iff_true_intro (empty_sized.cloneAsserts clone _)

omit [Inhabited α] in
theorem Sized.containsAsserts (sized : impl.Sized) : impl.ContainsAsserts := by
  intro i inside
  have here : i < impl.fInd.fIndexTable.length := lt_of_lt_of_le inside sized.size
  exact ⟨_, getElem?_eq_getElem here, sized.ind.inside _ (getElem_mem here)⟩

theorem Sized.noneFails_iff (calls : List (Call α)) (sized : impl.Sized) :
    NoneFails calls impl ↔ FitsRun calls impl := by
  induction calls generalizing impl with
  | nil => exact iff_true_intro sized.containsAsserts
  | cons c calls ih =>
    have rest : (∀ impl' ∈ AnyArrayImpl.call c impl, NoneFails calls impl') ↔
        ∀ impl' ∈ AnyArrayImpl.call c impl, FitsRun calls impl' :=
      forall₂_congr fun next called => ih (sized.call called)
    unfold NoneFails FitsRun
    rw [sized.callAsserts_iff, rest]
    exact and_iff_right sized.containsAsserts

/-- No assertion fails in a run on a new array if and only if every
`InsertReserve` of it meets the capacity that it asserts. -/
theorem empty_noneFails_iff (calls : List (Call α)) :
    NoneFails calls (empty : AnyArrayImpl α) ↔ FitsRun calls empty :=
  empty_sized.noneFails_iff calls

def insertRun : List (Call Nat) := [.step (.at_ 1 fun _ => 1), .step (.insertReserve 0 2)]

theorem not_noneFails_insert : ¬NoneFails insertRun empty := by
  intro safe
  obtain ⟨-, -, next⟩ := safe
  obtain ⟨-, ⟨-, -, fits⟩, -⟩ := next _ rfl
  revert fits
  decide +kernel

end AnyArrayImpl

end Coast
