import Coast.Base.LookupPath
import Coast.Base.DeepClone

/-!
# References to Anythings

`operator[]` of a variable gives a reference to a slot, which is made when it
is not there.  What is assigned to the reference goes into the array that has
the slot.
-/

namespace Coast

/-- An `Anything &` that is a slot of the array at a place. -/
structure AnyRef where
  place : Nat
  index : Nat
  deriving DecidableEq, Repr

namespace AnyImpl

def contains (text : Handle → Bytes) : AnyImpl → Bytes → Bool
  | charPtr value, k => cstr value = cstr k
  | array slots, k => slots.any fun slot => text slot.2 = cstr k
  | _, _ => false

def asString : AnyImpl → Bytes
  | long value => decimalText value.toInt
  | charPtr value => value
  | double text => text
  | voidBuf value => value
  | object _ => lit "IFAObject"
  | array _ => lit "AnyArrayImpl"

def mapSlots (write : Slots Handle → Slots Handle) : AnyImpl → AnyImpl
  | array slots => array (write slots)
  | impl => impl

end AnyImpl

namespace Heap

def isArray (heap : Heap) (any : Handle) : Bool :=
  match heap.impl any with
  | some (.array _) => true
  | _ => false

def asString (heap : Heap) (any : Handle) : Bytes := ((heap.impl any).map AnyImpl.asString).getD []

def contains (heap : Heap) (any : Handle) (k : Bytes) : Bool :=
  ((heap.impl any).map fun impl =>
    impl.contains (fun slot => (heap.asCharPtr slot).getD []) k).getD false

def arrayAt (heap : Heap) (place : Nat) : Slots Handle :=
  match heap[place]? with
  | some (.array slots) => slots
  | _ => []

def update (heap : Heap) (place : Nat) (write : Slots Handle → Slots Handle) : Heap :=
  heap.modify place (AnyImpl.mapSlots write)

def get (heap : Heap) (ref : AnyRef) : Handle := slot (heap.arrayAt ref.place) ref.index

def put (heap : Heap) (ref : AnyRef) (any : Handle) : Heap :=
  heap.update ref.place fun slots => slots.setIndex ref.index any

/-! ## The slots of a variable

The results are the heap, what the variable holds then and the reference; no
reference stands for the variable itself. -/

def expand (heap : Heap) (any : Handle) : Heap × Handle :=
  if heap.isArray any then (heap, any)
  else (heap ++ [.array (heap.slots any)], some heap.length)

def doGetAt (heap : Heap) (any : Handle) (i : Int) : Heap × Handle × Option AnyRef :=
  if heap.isArray any then
    (heap.update (any.getD 0) (Slots.at_ i.toNat id), any, some ⟨any.getD 0, i.toNat⟩)
  else (heap, any, none)

def doAt (heap : Heap) (any : Handle) (i : Int) : Heap × Handle × Option AnyRef :=
  if 0 < i ∨ any = none then
    (heap.expand any).1.doGetAt (heap.expand any).2 i
  else heap.doGetAt any i

def newKey (heap : Heap) (any : Handle) (k : Bytes) : Heap × Handle × Option AnyRef :=
  (heap.update (any.getD 0) (Slots.atKey (some k) id), any,
    some ⟨any.getD 0, (heap.arrayAt (any.getD 0)).length⟩)

def doAtKey (heap : Heap) (any : Handle) (k : Bytes) : Heap × Handle × Option AnyRef :=
  if cstr k = [] then heap.doAt any (heap.getSize any)
  else
    match heap.findIndex any k 0 0 with
    | none => (heap.expand any).1.newKey (heap.expand any).2 k
    | some i => heap.doAt any i

def through (ref : AnyRef) (result : Heap × Handle × Option AnyRef) : Heap × AnyRef :=
  (result.1.put ref result.2.1, result.2.2.getD ref)

def refAt (heap : Heap) (ref : AnyRef) (i : Int) : Heap × AnyRef :=
  through ref (heap.doAt (heap.get ref) i)

def refAtKey (heap : Heap) (ref : AnyRef) (k : Bytes) : Heap × AnyRef :=
  through ref (heap.doAtKey (heap.get ref) k)

def refAppend (heap : Heap) (ref : AnyRef) (a : Handle) : Heap :=
  let (heap, behind) := heap.refAt ref (heap.getSize (heap.get ref))
  heap.put behind a

def roAtKey (heap : Heap) (any : Handle) (k : Bytes) : Handle :=
  match heap.findIndex any k 0 0 with
  | none => none
  | some i => ROAnythingLookup.at_ heap any i

/-- `Remove(slot)` of an array.  What is not an array is cleared, which only
the variable sees. -/
def remove (heap : Heap) (any : Handle) (i : Int) : Heap :=
  if heap.isArray any then heap.update (any.getD 0) (Slots.remove i)
  else heap

def removeKey (heap : Heap) (any : Handle) (k : Bytes) : Heap :=
  match heap.findIndex any k 0 0 with
  | none => heap
  | some i => heap.remove any i

end Heap

end Coast
