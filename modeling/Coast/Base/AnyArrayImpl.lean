import Coast.Base.Anything
import Coast.Base.AnyKeyTable
import Coast.Base.AnyIndTable
import Coast.Library.InPlaceMergeSort

/-!
# The array implementation

`AnyArrayImpl` keeps its contents in buffers, the order of the slots in an
index table and the slots of the keys in a key table.
-/

namespace Coast

open LinearProbing InPlaceMergeSort

/-- A key and a value; the key of a slot without one is empty. -/
abbrev AnyKeyAssoc (α : Type) := Bytes × α

def AnyKeyAssoc.empty {α : Type} [Inhabited α] : AnyKeyAssoc α := ([], default)

def compareKeys : Bytes → Bytes → Int
  | [], [] => 0
  | [], _ :: _ => -1
  | _ :: _, [] => 1
  | a :: left, b :: right =>
    if a = b then compareKeys left right else if a < b then -1 else 1

/-- The buffers of an array, with the tables of its keys and its places. -/
structure AnyArrayImpl (α : Type) where
  /-- The buffers, one behind the other. -/
  fContents : List (AnyKeyAssoc α)
  fKeys : Option AnyKeyTable
  fInd : AnyIndTable
  fCapacity : Nat
  fSize : Nat
  deriving DecidableEq

namespace AnyArrayImpl

variable {α : Type} [Inhabited α]

def arrayBufSize : Nat := 4

def adjustCapacity (cap : Nat) : Nat := ((cap + arrayBufSize - 1) / arrayBufSize) * arrayBufSize

def empty : AnyArrayImpl α where
  fContents := List.replicate (adjustCapacity 4) .empty
  fKeys := none
  fInd := .init (adjustCapacity 4)
  fCapacity := adjustCapacity 4
  fSize := 0

def assocAt (impl : AnyArrayImpl α) (place : Nat) : AnyKeyAssoc α :=
  impl.fContents[place]?.getD .empty

def keyAt (impl : AnyArrayImpl α) (slot : Nat) : Bytes :=
  ((impl.fInd.constAt slot).map fun place =>
    (impl.assocAt place).1).getD []

def valueAt (impl : AnyArrayImpl α) (slot : Nat) : α :=
  ((impl.fInd.constAt slot).map fun place =>
    (impl.assocAt place).2).getD default

def slotName (impl : AnyArrayImpl α) (slot : Nat) : Option Bytes :=
  if (impl.keyAt slot).length > 0 then some (impl.keyAt slot) else none

def slots (impl : AnyArrayImpl α) : Slots α := impl.fInd.fIndexTable.map impl.assocAt

def findIndex (impl : AnyArrayImpl α) (key : Bytes) (sizehint hashhint : Nat) : Option Nat :=
  impl.fKeys.bind fun keys => keys.at_ impl.keyAt key sizehint hashhint

/-- Write to a place of the buffers.  Nothing is left when the place is
behind them. -/
def setContent (place : Nat) (write : AnyKeyAssoc α → AnyKeyAssoc α)
    (impl : AnyArrayImpl α) : Option (AnyArrayImpl α) :=
  if place < impl.fContents.length then
    some { impl with fContents := impl.fContents.modify place write }
  else none

def setKey (key : Bytes) : AnyKeyAssoc α → AnyKeyAssoc α := fun assoc => (key, assoc.2)

def setValue (write : α → α) : AnyKeyAssoc α → AnyKeyAssoc α :=
  fun assoc => (assoc.1, write assoc.2)

/-- The capacity is doubled at least, by whole buffers. -/
def expand (newsize : Nat) (impl : AnyArrayImpl α) : AnyArrayImpl α :=
  let cap :=
    if impl.fCapacity * 2 < newsize then adjustCapacity newsize
    else adjustCapacity (impl.fCapacity * 2)
  let numOfExistingBufs := impl.fContents.length / arrayBufSize
  let numOfNewBufs := cap / arrayBufSize
  { impl with
    fCapacity := cap
    fContents := impl.fContents ++ List.replicate
      ((numOfNewBufs - numOfExistingBufs) * arrayBufSize) .empty }

/-- The place of a slot, which is made if it is not there. -/
def address (slot : Nat) (impl : AnyArrayImpl α) : AnyArrayImpl α × Option Nat :=
  let newsz := slot + 1
  let impl :=
    if impl.fSize < newsz then
      let impl := { impl with fSize := newsz }
      if impl.fCapacity ≤ newsz then impl.expand newsz else impl
    else impl
  ({ impl with fInd := (impl.fInd.at_ slot).1 }, (impl.fInd.at_ slot).2)

def at_ (slot : Nat) (write : α → α) (impl : AnyArrayImpl α) : Option (AnyArrayImpl α) :=
  let (impl, place) := impl.address slot
  place.bind fun place => impl.setContent place (setValue write)

def lookKey (key : Bytes) (impl : AnyArrayImpl α) : AnyKeyTable × Option Nat :=
  match impl.fKeys with
  | none => (.initTable AnyKeyTable.cInitCapacity, none)
  | some keys => (keys, keys.at_ impl.keyAt key 0 0)

/-- `At(key)`; the key may be a null pointer. -/
def atKey (key : Option Bytes) (write : α → α) (impl : AnyArrayImpl α) : Option (AnyArrayImpl α) :=
  let key := key.map cstr
  let (keys, slot) := impl.lookKey (key.getD [])
  match slot with
  | none =>
    (keys.append impl.keyAt impl.fSize key impl.fSize).bind fun keys =>
    let (ind, place) := impl.fInd.at_ impl.fSize
    place.bind fun place =>
    ({ impl with fKeys := some keys, fInd := ind }.setContent place
      (setKey (key.getD []))).bind fun impl =>
    impl.at_ impl.fSize write
  | some slot =>
    -- the slot is taken for a place
    { impl with fKeys := some keys }.setContent slot (setValue write)

/-- The content is emptied, and its place is given back. -/
def remove (slot : Int) (impl : AnyArrayImpl α) : Option (AnyArrayImpl α) :=
  if 0 ≤ slot ∧ slot < impl.fSize then
    let slot := slot.toNat
    (impl.fInd.constAt slot).bind fun place =>
    (impl.setContent place fun _ => .empty).map fun impl =>
    { impl with
      fInd := impl.fInd.remove slot
      fKeys := impl.fKeys.map (·.updateRemoved slot)
      fSize := impl.fSize - 1 }
  else some impl

def eraseLoop (first : Nat) : Nat → AnyArrayImpl α → Option (AnyArrayImpl α)
  | 0, impl => some impl
  | count + 1, impl =>
    (impl.remove ((first + count : Nat) : Int)).bind (eraseLoop first count)

def erase (first last : Int) (impl : AnyArrayImpl α) : Option (AnyArrayImpl α) :=
  if 0 ≤ first ∧ first ≤ last ∧ last ≤ impl.fSize then
    eraseLoop first.toNat (last - first).toNat impl
  else some impl

/-- `InsertReserve`.  Without any slot there is none to make room behind,
and the rotation needs a position among the slots. -/
def insertReserve (pos size : Nat) (impl : AnyArrayImpl α) : Option (AnyArrayImpl α) :=
  if 0 < impl.fSize + size ∧ pos ≤ impl.fSize then
    (impl.at_ (impl.fSize + size - 1) id).map fun impl =>
    { impl with
      fInd := impl.fInd.insertReserve pos size
      fKeys := impl.fKeys.map (·.updateInserted pos size) }
  else none

def recreateKey (impl : AnyArrayImpl α) (keys : AnyKeyTable) (i : Nat) : Option AnyKeyTable :=
  match impl.slotName i with
  | some sn => keys.append impl.keyAt impl.fSize (some sn) i
  | none => some keys

def recreateKeyTable (impl : AnyArrayImpl α) : Option (AnyArrayImpl α) :=
  match impl.fKeys with
  | none => some impl
  | some keys =>
    ((List.range impl.fSize).foldlM impl.recreateKey keys.clear).map
      fun keys => { impl with fKeys := some keys }

/-- The index table is sorted by what its places hold. -/
def mergeSortByComparer (compare : AnyKeyAssoc α → AnyKeyAssoc α → Int)
    (impl : AnyArrayImpl α) : AnyArrayImpl α :=
  { impl with
    fInd := { impl.fInd with
      fIndexTable := sortPart
        (fun left right =>
          compare (impl.assocAt left) (impl.assocAt right) ≤ 0)
        0 (impl.fSize - 1) impl.fInd.fIndexTable } }

def keyComparer (left right : AnyKeyAssoc α) : Int := compareKeys left.1 right.1

def reverseKeyComparer (left right : AnyKeyAssoc α) : Int := -compareKeys left.1 right.1

def valueComparer (compare : α → α → Int) (left right : AnyKeyAssoc α) : Int :=
  compare left.2 right.2

def sortByComparer (compare : AnyKeyAssoc α → AnyKeyAssoc α → Int)
    (impl : AnyArrayImpl α) : Option (AnyArrayImpl α) :=
  (impl.mergeSortByComparer compare).recreateKeyTable

def sortByKey (impl : AnyArrayImpl α) : Option (AnyArrayImpl α) := impl.sortByComparer keyComparer

def sortReverseByKey (impl : AnyArrayImpl α) : Option (AnyArrayImpl α) :=
  impl.sortByComparer reverseKeyComparer

def sortByAnyComparer (compare : α → α → Int) (impl : AnyArrayImpl α) : Option (AnyArrayImpl α) :=
  impl.sortByComparer (valueComparer compare)

def deepClone (clone : α → α) (impl : AnyArrayImpl α) : Option (AnyArrayImpl α) :=
  (List.range impl.fSize).foldlM (fun pImpl i =>
    pImpl.atKey (impl.slotName i) fun _ => clone (impl.valueAt i)) empty

end AnyArrayImpl

namespace Slots

variable {α : Type} [Inhabited α]

def setValue (slot : Nat) (write : α → α) (slots : Slots α) : Slots α :=
  slots.modify slot fun assoc => (assoc.1, write assoc.2)

def at_ (slot : Nat) (write : α → α) (slots : Slots α) : Slots α :=
  setValue slot write (slots ++ List.replicate (slot + 1 - slots.length) AnyKeyAssoc.empty)

def atKey (key : Option Bytes) (write : α → α) (slots : Slots α) : Slots α :=
  match key.bind slots.findIndex with
  | some slot => setValue slot write slots
  | none => slots ++ [((key.map cstr).getD [], write default)]

def remove (slot : Int) (slots : Slots α) : Slots α :=
  if 0 ≤ slot then slots.eraseIdx slot.toNat else slots

def erase (first last : Int) (slots : Slots α) : Slots α :=
  if 0 ≤ first ∧ first ≤ last ∧ last ≤ slots.length then
    slots.take first.toNat ++ slots.drop last.toNat
  else slots

def insertReserve (pos size : Nat) (slots : Slots α) : Slots α :=
  slots.take pos ++ List.replicate size AnyKeyAssoc.empty ++ slots.drop pos

def sortByComparer (compare : AnyKeyAssoc α → AnyKeyAssoc α → Int) (slots : Slots α) : Slots α :=
  List.mergeSort slots fun left right => decide (compare left right ≤ 0)

def deepClone (clone : α → α) (slots : Slots α) : Slots α :=
  slots.map fun assoc => (assoc.1, clone assoc.2)

end Slots

end Coast
