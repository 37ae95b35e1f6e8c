import Coast.Base.AnyArrayOperations

/-!
# Runs on an array

An array represents the list that the same operations make of a plain one,
as long as no step runs into a slip of `At(key)`: a new key needs a free
slot in the buffers, and the slot of a known key is taken for its place.
-/

namespace Coast

open LinearProbing

namespace AnyArrayImpl

variable {α : Type} [Inhabited α] {impl : AnyArrayImpl α}

/-- An operation on an array, with what is done to the value that a
reference from `At` refers to. -/
inductive Step (α : Type) where
  | at_ (slot : Nat) (write : α → α)
  | atKey (key : Option Bytes) (write : α → α)
  | remove (slot : Int)
  | erase (first last : Int)
  | insertReserve (pos size : Nat)
  | sortByKey
  | sortReverseByKey
  | sortByAnyComparer (compare : α → α → Int)
  | recreateKeyTable
  | deepClone (clone : α → α)

/-- An operation, which may not come to its end. -/
def step : Step α → AnyArrayImpl α → Option (AnyArrayImpl α)
  | .at_ slot write, impl => impl.at_ slot write
  | .atKey key write, impl => impl.atKey key write
  | .remove slot, impl => impl.remove slot
  | .erase first last, impl => impl.erase first last
  | .insertReserve pos size, impl => impl.insertReserve pos size
  | .sortByKey, impl => impl.sortByKey
  | .sortReverseByKey, impl => impl.sortReverseByKey
  | .sortByAnyComparer compare, impl => impl.sortByAnyComparer compare
  | .recreateKeyTable, impl => impl.recreateKeyTable
  | .deepClone clone, impl => impl.deepClone clone

/-- What the operation means for a list of slots. -/
def plainStep : Step α → Slots α → Slots α
  | .at_ slot write, slots => slots.at_ slot write
  | .atKey key write, slots => slots.atKey key write
  | .remove slot, slots => Slots.remove slot slots
  | .erase first last, slots => Slots.erase first last slots
  | .insertReserve pos size, slots => slots.insertReserve pos size
  | .sortByKey, slots => slots.sortByComparer keyComparer
  | .sortReverseByKey, slots => slots.sortByComparer reverseKeyComparer
  | .sortByAnyComparer compare, slots =>
    slots.sortByComparer (valueComparer compare)
  | .recreateKeyTable, slots => slots
  | .deepClone clone, slots => slots.deepClone clone

def run : List (Step α) → AnyArrayImpl α → Option (AnyArrayImpl α)
  | [], impl => some impl
  | s :: steps, impl => (step s impl).bind (run steps)

def plainRun (steps : List (Step α)) (slots : Slots α) : Slots α :=
  steps.foldl (fun slots s => plainStep s slots) slots

/-- A step that the slips of `At(key)` do not reach: a slot for a new key
has to be in the buffers already, the slot of a known key has to be its own
place, and the empty key is none.  `InsertReserve` needs a position among
the slots, and a slot. -/
def Allowed (impl : AnyArrayImpl α) : Step α → Prop
  | .atKey none _ => impl.fSize < impl.fCapacity
  | .atKey (some key) _ => cstr key ≠ [] ∧
    match impl.slots.findIndex key with
      | some slot => impl.fInd.fIndexTable[slot]? = some slot
      | none => impl.fSize < impl.fCapacity
  | .insertReserve pos size =>
    pos ≤ impl.fSize ∧ 0 < impl.fSize + size
  | _ => True

instance (impl : AnyArrayImpl α) (s : Step α) : Decidable (Allowed impl s) :=
  match s with
  | .atKey none _ => inferInstanceAs (Decidable (_ < _))
  | .atKey (some key) _ =>
    match found : impl.slots.findIndex key with
    | some slot =>
      decidable_of_iff (cstr key ≠ [] ∧ impl.fInd.fIndexTable[slot]? = some slot)
        (by simp only [Allowed, found])
    | none =>
      decidable_of_iff (cstr key ≠ [] ∧ impl.fSize < impl.fCapacity) (by simp only [Allowed, found])
  | .insertReserve _ _ => inferInstanceAs (Decidable (_ ∧ _))
  | .at_ _ _ => .isTrue trivial
  | .remove _ => .isTrue trivial
  | .erase _ _ => .isTrue trivial
  | .sortByKey => .isTrue trivial
  | .sortReverseByKey => .isTrue trivial
  | .sortByAnyComparer _ => .isTrue trivial
  | .recreateKeyTable => .isTrue trivial
  | .deepClone _ => .isTrue trivial

def AllowedRun : List (Step α) → AnyArrayImpl α → Prop
  | [], _ => True
  | s :: steps, impl =>
    Allowed impl s ∧ ∀ impl' ∈ step s impl, AllowedRun steps impl'

instance decidableAllowedRun :
    (steps : List (Step α)) → (impl : AnyArrayImpl α) → Decidable (AllowedRun steps impl)
  | [], _ => .isTrue trivial
  | s :: steps, impl =>
    haveI := decidableAllowedRun steps
    inferInstanceAs (Decidable (Allowed impl s ∧ ∀ impl' ∈ step s impl, AllowedRun steps impl'))

/-- What an array is for: it is an ordered list of slots with different
keys, `FindIndex` finds the slot of a key, every place is used once or kept
for later, and the key table can take another key. -/
structure Represents (impl : AnyArrayImpl α) (slots : Slots α) : Prop where
  content : impl.slots = slots
  keysOk : slots.KeysOk
  found : ∀ key slot, NulFree key → key ≠ [] →
    (impl.findIndex key 0 0 = some slot ↔ slots[slot]?.map Prod.fst = some key)
  absent : ∀ key, NulFree key → key ∉ slots.keys → impl.findIndex key 0 0 = none
  permutation : (impl.fInd.fIndexTable ++ impl.fInd.fEmptyTable).Perm
    (List.range impl.fInd.fCapacity)
  free : ∀ keys, impl.fKeys = some keys → ∃ bucket ∈ keys.fHashTable, bucket.isEntry = false

theorem Good.represents (good : impl.Good) : Represents impl impl.slots where
  content := rfl
  keysOk := good.keysOk
  found key slot nulFree named := by
    have carries : impl.slots[slot]?.map Prod.fst = some key ↔ impl.slots.keyOf slot = key := by
      unfold Slots.keyOf
      cases impl.slots[slot]? with
      | none => simp [named.symm]
      | some assoc => simp
    rw [good.findIndex_eq nulFree, carries]
    exact good.keysOk.findIndex_eq_some_iff nulFree named slot
  absent key nulFree new := by
    rw [good.findIndex_eq nulFree]
    apply Slots.findIndex_eq_none
    rwa [cstr_of_nulFree nulFree]
  permutation := good.ind.permutation
  free t table := by
    have keys := good.keys
    rw [table] at keys
    have ok : t.Ok impl.slots.keyOf (fun slot => impl.slots.keyOf slot ≠ []) := keys
    by_contra full
    have all : ∀ bucket ∈ t.fHashTable, bucket.isEntry = true := by
      intro bucket member
      by_contra isFree
      exact full ⟨bucket, member, by simpa using isFree⟩
    have count := List.countP_eq_length.mpr all
    exact absurd ok.used_lt (by
      unfold used AnyKeyTable.fCapacity
      omega)

theorem Good.step (good : impl.Good) {s : Step α} (allowed : Allowed impl s) :
    ∃ impl', step s impl = some impl' ∧ impl'.Good ∧ impl'.slots = plainStep s impl.slots := by
  cases s with
  | at_ slot write =>
    obtain ⟨impl', done, good', slots', -⟩ := good.at_ slot write
    exact ⟨impl', done, good', slots'⟩
  | atKey key write =>
    cases key with
    | none =>
      obtain ⟨impl', done, good', slots', -⟩ :=
        good.atKey_new allowed none (fun _ never => nomatch never) write
      exact ⟨impl', done, good', slots'⟩
    | some key =>
      obtain ⟨named, room⟩ := allowed
      cases found : impl.slots.findIndex key with
      | some slot =>
        simp only [found] at room
        obtain ⟨impl', done, good', slots'⟩ := good.atKey_known found room write
        refine ⟨impl', done, good', ?_⟩
        rw [slots']
        simp only [plainStep, Slots.atKey, Option.bind_some, found]
      | none =>
        simp only [found] at room
        have new : cstr key ∉ impl.slots.keys := by
          intro member
          obtain ⟨-, slot, same⟩ := Slots.mem_keys_iff.mp member
          have there := (good.keysOk.findIndex_eq_some_iff (nulFree_cstr key) named slot).mpr same
          unfold Slots.findIndex at there found
          rw [cstr_of_nulFree (nulFree_cstr key), found] at there
          cases there
        obtain ⟨impl', done, good', slots', -⟩ :=
          good.atKey_new room (some key) (fun text same => by
              cases same
              exact ⟨named, new⟩) write
        refine ⟨impl', done, good', ?_⟩
        rw [slots']
        simp only [plainStep, Slots.atKey, Option.bind_some, found]
  | remove slot => exact good.removeAny slot
  | erase first last => exact good.erase first last
  | insertReserve pos size => exact good.insertReserve allowed.1 allowed.2
  | sortByKey => exact good.sortByComparer keyComparer
  | sortReverseByKey => exact good.sortByComparer reverseKeyComparer
  | sortByAnyComparer compare =>
    exact good.sortByComparer (valueComparer compare)
  | recreateKeyTable => exact good.recreateKeyTable
  | deepClone clone => exact good.deepClone clone

theorem Good.run (steps : List (Step α)) :
    ∀ {impl : AnyArrayImpl α}, impl.Good → AllowedRun steps impl →
      ∃ impl', run steps impl = some impl' ∧ impl'.Good ∧
        impl'.slots = plainRun steps impl.slots := by
  induction steps with
  | nil =>
    intro impl good _
    exact ⟨impl, rfl, good, rfl⟩
  | cons s steps ih =>
    intro impl good allowed
    obtain ⟨next, stepped, nextGood, nextSlots⟩ := good.step allowed.1
    obtain ⟨impl', done, good', slots'⟩ := ih nextGood (allowed.2 next stepped)
    refine ⟨impl', ?_, good', ?_⟩
    · rw [AnyArrayImpl.run, stepped]
      exact done
    · rw [slots', nextSlots]
      rfl

/-- A run on a new array whose steps are all allowed succeeds, and the array
represents what the same operations do to the plain list. -/
theorem run_represents (steps : List (Step α))
    (allowed : AllowedRun steps (empty : AnyArrayImpl α)) :
    ∃ impl, run steps (empty : AnyArrayImpl α) = some impl ∧
      Represents impl (plainRun steps []) := by
  obtain ⟨impl, done, good, slots'⟩ := Good.run steps empty_good allowed
  refine ⟨impl, done, ?_⟩
  rw [slots_empty] at slots'
  rw [← slots']
  exact good.represents

/-- Growth, keys, a removal below a key and an insertion before it. -/
def exampleRun : List (Step Nat) :=
  [.at_ 2 fun _ => 7, .atKey (some (lit "a")) fun _ => 1,
    .atKey (some (lit "b")) fun _ => 2, .remove 0, .atKey none fun _ => 3,
    .insertReserve 1 2, .erase 3 4, .recreateKeyTable, .deepClone id,
    .atKey (some (lit "a")) fun _ => 4]

theorem run_represents_example :
    AllowedRun exampleRun empty ∧ ∃ impl, run exampleRun empty = some impl ∧
      Represents impl (plainRun exampleRun []) :=
  ⟨by decide +kernel, run_represents exampleRun (by decide +kernel)⟩

def fullRun : List (Step Nat) := [.at_ 11 fun _ => 1, .atKey (some (lit "k")) fun _ => 2]

/-- After the removal of a slot before it a key leads to another place. -/
def removedRun : List (Step Nat) :=
  [.atKey (some (lit "a")) fun _ => 1, .atKey (some (lit "b")) fun _ => 2,
    .remove 0, .atKey (some (lit "b")) fun _ => 3]

theorem not_run_represents :
    (¬ ∃ impl, run fullRun empty = some impl ∧ Represents impl (plainRun fullRun [])) ∧
    ¬ ∃ impl, run removedRun empty = some impl ∧ Represents impl (plainRun removedRun []) := by
  constructor
  · rintro ⟨impl, done, -⟩
    have fault : run fullRun empty = none := by decide +kernel
    rw [fault] at done
    cases done
  · rintro ⟨impl, done, represents⟩
    have wrong : (run removedRun empty).map slots ≠
        some (plainRun removedRun []) := by decide +kernel
    rw [done, Option.map_some, represents.content] at wrong
    exact wrong rfl

end AnyArrayImpl

end Coast
