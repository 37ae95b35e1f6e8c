import Mathlib.Data.List.Perm.Subperm
import Mathlib.Data.List.Range

/-!
# The index table of an array

`AnyIndTable` maps the slots of an array to the places of their contents.
The places that no slot uses are kept for later slots.
-/

namespace Coast

open List

/-- The places of the slots, and the free places. -/
structure AnyIndTable where
  /-- The cells of `fIndexTable` below `fSize`. -/
  fIndexTable : List Nat
  /-- The cells of `fEmptyTable` from `fSize` on. -/
  fEmptyTable : List Nat
  deriving DecidableEq, Repr

namespace AnyIndTable

def fSize (t : AnyIndTable) : Nat := t.fIndexTable.length

def fCapacity (t : AnyIndTable) : Nat := t.fIndexTable.length + t.fEmptyTable.length

def init (initCapacity : Nat) : AnyIndTable := ⟨[], List.range initCapacity⟩

def initEmpty (newCap : Nat) (t : AnyIndTable) : AnyIndTable :=
  { t with
    fEmptyTable := t.fEmptyTable ++ List.range' t.fCapacity (newCap - t.fCapacity) }

def initIndices (slot : Nat) (t : AnyIndTable) : AnyIndTable :=
  ⟨t.fIndexTable ++ t.fEmptyTable.take (slot + 1 - t.fSize),
    t.fEmptyTable.drop (slot + 1 - t.fSize)⟩

def expand (slot : Nat) (t : AnyIndTable) : AnyIndTable :=
  let cap := if t.fCapacity * 2 ≤ slot then slot else t.fCapacity
  initIndices slot (initEmpty (cap * 2) t)

def at_ (slot : Nat) (t : AnyIndTable) : AnyIndTable × Option Nat :=
  let t := if t.fCapacity ≤ slot then t.expand slot else t
  let t := if t.fSize ≤ slot then t.initIndices slot else t
  (t, t.fIndexTable[slot]?)

def constAt (slot : Nat) (t : AnyIndTable) : Option Nat := t.fIndexTable[slot]?

def remove (slot : Nat) (t : AnyIndTable) : AnyIndTable :=
  ⟨t.fIndexTable.eraseIdx slot, t.fIndexTable[slot]?.toList ++ t.fEmptyTable⟩

def insertReserve (pos size : Nat) (t : AnyIndTable) : AnyIndTable :=
  let middle := t.fSize - size
  { t with
    fIndexTable := t.fIndexTable.take pos ++ t.fIndexTable.drop middle ++
      (t.fIndexTable.take middle).drop pos }

/-- Every place is used once or not at all.  A used place is below the
bound, an unused one is below it or is the next one at its turn. -/
structure Ok (t : AnyIndTable) (bound : Nat) : Prop where
  permutation : (t.fIndexTable ++ t.fEmptyTable).Perm (List.range t.fCapacity)
  capacity : 0 < t.fCapacity
  inside : ∀ place ∈ t.fIndexTable, place < bound
  next : ∀ (j place : Nat), t.fEmptyTable[j]? = some place → place < bound ∨ place = t.fSize + j

variable {t : AnyIndTable} {bound : Nat}

theorem Ok.nodup (ok : t.Ok bound) : (t.fIndexTable ++ t.fEmptyTable).Nodup :=
  ok.permutation.nodup_iff.mpr nodup_range

theorem Ok.nodupUsed (ok : t.Ok bound) : t.fIndexTable.Nodup := (nodup_append.mp ok.nodup).1

theorem Ok.fSize_le (ok : t.Ok bound) : t.fSize ≤ bound := by
  have inside : t.fIndexTable ⊆ List.range bound := by
    intro place member
    exact mem_range.mpr (ok.inside place member)
  have short := (ok.nodupUsed.subperm inside).length_le
  rwa [length_range] at short

theorem init_ok {initCapacity : Nat} (positive : 0 < initCapacity)
    (bound : Nat) : (init initCapacity).Ok bound where
  permutation := by simp [init, fCapacity]
  capacity := by simpa [init, fCapacity] using positive
  inside place member := by cases member
  next j place found := by
    obtain ⟨_, same⟩ := List.getElem?_eq_some_iff.mp found
    right
    simpa [init, fSize] using same.symm

section

variable (ok : t.Ok bound)
include ok

theorem Ok.mono {bound' : Nat} (more : bound ≤ bound') : t.Ok bound' where
  permutation := ok.permutation
  capacity := ok.capacity
  inside place member := Nat.lt_of_lt_of_le (ok.inside place member) more
  next j place found := by
    rcases ok.next j place found with below | here
    · exact Or.inl (Nat.lt_of_lt_of_le below more)
    · exact Or.inr here

theorem Ok.initEmpty {newCap : Nat} (more : t.fCapacity ≤ newCap) :
    (t.initEmpty newCap).Ok bound ∧ (t.initEmpty newCap).fCapacity = newCap := by
  have capacity : (t.initEmpty newCap).fCapacity = newCap := by
    unfold AnyIndTable.initEmpty fCapacity at *
    simp only [length_append, length_range']
    omega
  refine ⟨⟨?_, ?_, ok.inside, ?_⟩, capacity⟩
  · rw [capacity]
    have fill : List.range newCap = List.range t.fCapacity ++
        List.range' t.fCapacity (newCap - t.fCapacity) := by
      have parts := range'_append_1 (s := 0) (m := t.fCapacity) (n := newCap - t.fCapacity)
      rw [Nat.zero_add, Nat.add_sub_cancel' more] at parts
      rw [range_eq_range', range_eq_range', parts]
    rw [fill]
    unfold AnyIndTable.initEmpty
    rw [← append_assoc]
    exact ok.permutation.append_right _
  · rw [capacity]
    exact Nat.lt_of_lt_of_le ok.capacity more
  · intro j place found
    unfold AnyIndTable.initEmpty at found
    by_cases old : j < t.fEmptyTable.length
    · rw [getElem?_append_left old] at found
      exact ok.next j place found
    · rw [getElem?_append_right (by omega)] at found
      obtain ⟨_, same⟩ := List.getElem?_eq_some_iff.mp found
      rw [getElem_range'] at same
      right
      change place = t.fSize + j
      unfold fSize
      unfold fCapacity at same
      omega

theorem Ok.initIndices (slot bound' : Nat) (enough : slot < t.fCapacity) (new : t.fSize ≤ slot)
    (more : bound ≤ bound') (room : slot < bound') :
    (t.initIndices slot).Ok bound' ∧ (t.initIndices slot).fSize = slot + 1 ∧
      (t.initIndices slot).fCapacity = t.fCapacity := by
  unfold fCapacity at enough
  unfold fSize at new
  have size : (t.initIndices slot).fSize = slot + 1 := by
    unfold AnyIndTable.initIndices fSize
    rw [length_append, length_take]
    omega
  have same : (t.initIndices slot).fIndexTable ++
      (t.initIndices slot).fEmptyTable = t.fIndexTable ++ t.fEmptyTable := by
    unfold AnyIndTable.initIndices
    rw [append_assoc, take_append_drop]
  have capacity : (t.initIndices slot).fCapacity = t.fCapacity := by
    unfold fCapacity
    rw [← length_append, ← length_append, same]
  refine ⟨⟨?_, ?_, ?_, ?_⟩, size, capacity⟩
  · rw [same, capacity]
    exact ok.permutation
  · rw [capacity]
    exact ok.capacity
  · intro place member
    unfold AnyIndTable.initIndices at member
    rcases mem_append.mp member with old | moved
    · exact Nat.lt_of_lt_of_le (ok.inside place old) more
    · obtain ⟨j, found⟩ := mem_iff_getElem?.mp moved
      rw [getElem?_take] at found
      split at found
      · rename_i early
        unfold fSize at early
        rcases ok.next j place found with below | here
        · exact Nat.lt_of_lt_of_le below more
        · unfold fSize at here
          omega
      · cases found
  · intro j place found
    rw [size]
    unfold AnyIndTable.initIndices at found
    rw [getElem?_drop] at found
    rcases ok.next _ place found with below | here
    · exact Or.inl (Nat.lt_of_lt_of_le below more)
    · unfold fSize at here
      right
      omega

/-- What `at_` takes its places from: the table with room for the slot. -/
theorem Ok.roomFor (slot : Nat) :
    ∃ u : AnyIndTable, u.Ok bound ∧ u.fIndexTable = t.fIndexTable ∧ slot < u.fCapacity ∧
      (t.at_ slot).1 = if u.fSize ≤ slot then u.initIndices slot else u := by
  by_cases full : t.fCapacity ≤ slot
  · have positive := ok.capacity
    let cap := if t.fCapacity * 2 ≤ slot then slot else t.fCapacity
    have less : t.fCapacity ≤ cap * 2 ∧ slot < cap * 2 := by
      by_cases far : t.fCapacity * 2 ≤ slot
      · simp only [cap, if_pos far]
        omega
      · simp only [cap, if_neg far]
        omega
    obtain ⟨emptyOk, capacity⟩ := ok.initEmpty less.1
    have short : t.fSize ≤ slot := by
      unfold fCapacity at full
      unfold fSize
      omega
    refine ⟨t.initEmpty (cap * 2), emptyOk, rfl, ?_, ?_⟩
    · rw [capacity]
      exact less.2
    · have size : (t.initEmpty (cap * 2)).fSize = t.fSize := rfl
      obtain ⟨-, after, -⟩ := emptyOk.initIndices slot (bound + slot + 1)
        (by rw [capacity]; exact less.2)
        (by rw [size]; exact short) (by omega) (by omega)
      rw [size, if_pos short]
      unfold AnyIndTable.at_
      simp only [if_pos full]
      have expanded : t.expand slot = (t.initEmpty (cap * 2)).initIndices slot := rfl
      rw [expanded, after, if_neg (by omega)]
  · refine ⟨t, ok, rfl, by omega, ?_⟩
    unfold AnyIndTable.at_
    simp only [if_neg full]

theorem Ok.at_ {slot bound' : Nat} (more : bound ≤ bound') (room : slot < bound') :
    ∃ moved : List Nat, (t.at_ slot).1.fIndexTable = t.fIndexTable ++ moved ∧
      moved.length = slot + 1 - t.fSize ∧
      (t.at_ slot).1.Ok bound' ∧
      (t.at_ slot).2 = (t.at_ slot).1.fIndexTable[slot]? := by
  obtain ⟨u, uOk, same, enough, result⟩ := ok.roomFor slot
  rw [show t.fSize = u.fSize by unfold fSize; rw [same], result]
  by_cases new : u.fSize ≤ slot
  · rw [if_pos new]
    obtain ⟨newOk, -, -⟩ := uOk.initIndices slot bound' enough new more room
    refine ⟨u.fEmptyTable.take (slot + 1 - u.fSize), ?_, ?_, newOk, ?_⟩
    · rw [← same]
      rfl
    · rw [length_take]
      unfold fCapacity at enough
      unfold fSize
      omega
    · rw [← if_pos new (c := u.fSize ≤ slot) (t := u.initIndices slot) (e := u), ← result]
      rfl
  · rw [if_neg new]
    refine ⟨[], ?_, ?_, uOk.mono more, ?_⟩
    · rw [append_nil, same]
    · rw [length_nil]
      omega
    · rw [← if_neg new (c := u.fSize ≤ slot) (t := u.initIndices slot) (e := u), ← result]
      rfl

/-- A new slot that is not below the bound has its place there. -/
theorem Ok.at_outside {slot place : Nat} (outside : bound ≤ slot)
    (found : (t.at_ slot).2 = some place) : bound ≤ place := by
  obtain ⟨u, uOk, same, enough, result⟩ := ok.roomFor slot
  have size : u.fSize = t.fSize := congrArg List.length same
  have new : u.fSize ≤ slot := size ▸ le_trans ok.fSize_le outside
  obtain ⟨moved, -, -, -, isAt⟩ := ok.at_ (Nat.le_add_right bound (slot + 1))
    (show slot < bound + (slot + 1) by omega)
  rw [isAt, result, if_pos new, AnyIndTable.initIndices,
    getElem?_append_right (show u.fIndexTable.length ≤ slot from new),
    ← fSize, getElem?_take_of_lt (show slot - u.fSize < slot + 1 - u.fSize by omega)] at found
  by_contra below
  have isPlace : place < bound := by omega
  -- the place with the number of the slot is an unused one, at its turn
  have used : slot ∉ u.fIndexTable := fun member => absurd (uOk.inside slot member) (by omega)
  have member : slot ∈ u.fIndexTable ++ u.fEmptyTable :=
    uOk.permutation.mem_iff.mpr (mem_range.mpr enough)
  rcases mem_append.mp member with inIndex | unused
  · exact used inIndex
  · obtain ⟨j, atTurn⟩ := mem_iff_getElem?.mp unused
    rcases uOk.next j slot atTurn with inside | turn
    · omega
    · have here : j = slot - u.fSize := by omega
      rw [← here] at found
      have both : some place = some slot := found.symm.trans atTurn
      cases both
      omega

theorem Ok.remove (slot : Nat) (inside : slot < t.fSize) : (t.remove slot).Ok bound := by
  unfold fSize at inside
  have found : t.fIndexTable[slot]? = some t.fIndexTable[slot] := getElem?_eq_getElem inside
  have capacity : (t.remove slot).fCapacity = t.fCapacity := by
    unfold AnyIndTable.remove fCapacity
    rw [found, length_eraseIdx, if_pos inside]
    simp only [Option.toList_some, length_append, length_cons, length_nil]
    omega
  refine ⟨?_, ?_, ?_, ?_⟩
  · rw [capacity]
    refine List.Perm.trans ?_ ok.permutation
    unfold AnyIndTable.remove
    rw [found, ← append_assoc]
    refine List.Perm.append_right _ ?_
    exact (perm_append_comm).trans (getElem_cons_eraseIdx_perm inside)
  · rw [capacity]
    exact ok.capacity
  · intro place member
    exact ok.inside place (mem_of_mem_eraseIdx member)
  · intro j place found'
    have size : (t.remove slot).fSize + 1 = t.fSize := by
      unfold AnyIndTable.remove fSize
      rw [length_eraseIdx, if_pos inside]
      omega
    unfold AnyIndTable.remove at found'
    rw [found] at found'
    cases j with
    | zero =>
      simp only [Option.toList_some, cons_append, getElem?_cons_zero, Option.some.injEq] at found'
      rw [← found']
      exact Or.inl (ok.inside _ (getElem_mem inside))
    | succ j =>
      rcases ok.next j place found' with below | here
      · exact Or.inl below
      · right
        omega

theorem Ok.reorder {index : List Nat} (same : index.Perm t.fIndexTable) :
    ({ t with fIndexTable := index } : AnyIndTable).Ok bound where
  permutation := by
    unfold fCapacity
    rw [same.length_eq]
    exact (same.append_right _).trans ok.permutation
  capacity := by
    unfold fCapacity
    rw [same.length_eq]
    exact ok.capacity
  inside place member := ok.inside place (same.mem_iff.mp member)
  next j place found := by
    unfold fSize
    rw [same.length_eq]
    exact ok.next j place found

end

theorem insertReserve_perm (t : AnyIndTable) (pos size : Nat) (before : pos + size ≤ t.fSize) :
    (t.insertReserve pos size).fIndexTable.Perm t.fIndexTable := by
  have head : (t.fIndexTable.take (t.fSize - size)).take pos = t.fIndexTable.take pos := by
    rw [take_take, Nat.min_eq_left (by omega)]
  have split := take_append_drop (t.fSize - size) t.fIndexTable
  rw [← take_append_drop pos (t.fIndexTable.take (t.fSize - size)), head, append_assoc] at split
  have rotated : (t.insertReserve pos size).fIndexTable =
      t.fIndexTable.take pos ++ (t.fIndexTable.drop (t.fSize - size) ++
        (t.fIndexTable.take (t.fSize - size)).drop pos) :=
    append_assoc _ _ _
  rw [rotated]
  refine List.Perm.trans ?_ (List.Perm.of_eq split)
  exact List.Perm.append_left _ perm_append_comm

end AnyIndTable

end Coast
