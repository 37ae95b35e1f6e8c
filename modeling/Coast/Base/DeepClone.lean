import Coast.Base.AnyAccess
import Coast.Library.GraphCopy

/-!
# Deep clones

`DeepClone` copies the implementations that are reached from a handle.  Those
that several Anythings hold are entered into a table under their printed
address before their slots are cloned.
-/

namespace Coast

open List

def lowerHexDigit (n : Nat) : Byte := (lit "0123456789abcdef").getD n 0

def lowerHexDigits : Nat → Nat → Bytes
  | 0, _ => []
  | count + 1, n => lowerHexDigits count (n / 16) ++ [lowerHexDigit (n % 16)]

def thisToHex (place : Nat) : Bytes := lowerHexDigits 16 place

def AnyImpl.handles : AnyImpl → List Handle
  | array slots => slots.map Prod.snd
  | _ => []

namespace Heap

def slotCount (place : Nat) : Heap → Nat
  | [] => 0
  | impl :: heap => impl.handles.count (some place) + slotCount place heap

end Heap

/-- An Anything and the implementations that are alive.  The `heap` is what
is seen from everywhere; `others` counts the Anythings outside of it. -/
structure AnyGraph where
  heap : Heap
  root : Handle
  others : Nat → Nat
  /-- no handle dangles -/
  rootInside : ∀ place, root = some place → place < heap.length
  slotsInside : ∀ impl ∈ heap, ∀ place, some place ∈ impl.handles → place < heap.length
  keysOk : ∀ slots, AnyImpl.array slots ∈ heap → Slots.KeysOk slots
  /-- an address has 64 bits -/
  addressable : heap.length ≤ 2 ^ 64

def AnyGraph.refCount (graph : AnyGraph) (place : Nat) : Nat :=
  graph.others place + (if graph.root = some place then 1 else 0) + graph.heap.slotCount place

/-- `Clone`: an array is cloned without its slots. -/
def AnyImpl.clone : AnyImpl → AnyImpl
  | array _ => array []
  | impl => impl

structure CloneState where
  heap : Heap
  xreftable : Slots Nat

def slotNameOf (key : Bytes) : Option Bytes := if key.length > 0 then some key else none

def CloneState.assign (pImpl : Nat) (key : Bytes) (value : Handle) (st : CloneState) : CloneState :=
  { st with
    heap := st.heap.modify pImpl fun impl =>
      match impl with
      | .array slots => .array (slots.atKey (slotNameOf key) fun _ => value)
      | impl => impl }

def cloneSlots (deepClone : Handle → CloneState → Option (Handle × CloneState))
    (pImpl : Nat) : Slots Handle → CloneState → Option CloneState
  | [], st => some st
  | (key, value) :: slots, st =>
    (deepClone value st).bind fun (clone, st) =>
      cloneSlots deepClone pImpl slots (st.assign pImpl key clone)

/-- `DoDeepClone`, which only an array overrides. -/
def doDeepClone (deepClone : Handle → CloneState → Option (Handle × CloneState))
    (impl : AnyImpl) (pObj : Nat) (st : CloneState) :
    Option (Handle × CloneState) :=
  match impl with
  | .array slots =>
    (cloneSlots deepClone pObj slots st).map fun st => (some pObj, st)
  | _ => some (some pObj, st)

/-- What is shared is looked up in the table before it is cloned. -/
def deepClone (refCount : Nat → Nat) : Nat → Handle → CloneState → Option (Handle × CloneState)
  | _, none, st => some (none, st)
  | 0, some _, _ => none
  | fuel + 1, some place, st =>
    st.heap[place]?.bind fun impl =>
      let pObj := st.heap.length
      if 1 < refCount place then
        let adr := thisToHex place
        match st.xreftable.lookup adr with
        | some pObj => some (some pObj, st)
        | none =>
          doDeepClone (deepClone refCount fuel) impl pObj
            ⟨st.heap ++ [impl.clone], st.xreftable.setKey adr pObj⟩
      else
        doDeepClone (deepClone refCount fuel) impl pObj ⟨st.heap ++ [impl.clone], st.xreftable⟩

def AnyGraph.deepClone (graph : AnyGraph) (fuel : Nat) : Option (Handle × CloneState) :=
  Coast.deepClone graph.refCount fuel graph.root ⟨graph.heap, []⟩

def AnyImpl.withoutHandles : AnyImpl → AnyImpl
  | array slots => array (slots.map fun slot => (slot.1, none))
  | impl => impl

/-- The graph of the implementations: a label tells the keys of an array or
the value of a leaf, the slots are in their order. -/
def Heap.graph (heap : Heap) (root : Handle) : RootedGraph Nat Nat (Option AnyImpl) where
  root := root
  label place := heap[place]?.map AnyImpl.withoutHandles
  slot place i := heap[place]?.bind fun impl => (impl.handles[i]?).join

namespace Heap

private theorem two_le_count {handles : List Handle} {place i j : Nat}
    (first : handles[i]? = some (some place))
    (second : handles[j]? = some (some place)) (different : i ≠ j) :
    2 ≤ handles.count (some place) := by
  induction handles generalizing i j with
  | nil => cases first
  | cons handle handles ih =>
    have one : ∀ {k : Nat}, handles[k]? = some (some place) → 1 ≤ handles.count (some place) :=
      fun found => count_pos_iff.mpr (mem_of_getElem? found)
    cases i with
    | zero =>
      cases j with
      | zero => exact absurd rfl different
      | succ j =>
        have here : handle = some place := Option.some.inj first
        have rest := one second
        rw [here, count_cons_self]
        omega
    | succ i =>
      cases j with
      | zero =>
        have here : handle = some place := Option.some.inj second
        have rest := one first
        rw [here, count_cons_self]
        omega
      | succ j =>
        have rest := ih first second (by omega)
        rw [count_cons]
        omega

private theorem slotCount_pos {heap : Heap} {place a : Nat} {impl : AnyImpl}
    (inHeap : heap[a]? = some impl) (held : some place ∈ impl.handles) :
    1 ≤ heap.slotCount place := by
  induction heap generalizing a with
  | nil => cases inHeap
  | cons first heap ih =>
    cases a with
    | zero =>
      have here : first = impl := Option.some.inj inHeap
      have positive := count_pos_iff.mpr held
      rw [slotCount, here]
      omega
    | succ a =>
      have inRest : heap[a]? = some impl := inHeap
      have rest := ih inRest
      rw [slotCount]
      omega

private theorem two_le_slotCount {heap : Heap} {place a b i j : Nat}
    {impl other : AnyImpl} (inHeap : heap[a]? = some impl)
    (otherInHeap : heap[b]? = some other) (held : impl.handles[i]? = some (some place))
    (heldAgain : other.handles[j]? = some (some place))
    (different : (a, i) ≠ (b, j)) : 2 ≤ heap.slotCount place := by
  induction heap generalizing a b with
  | nil => cases inHeap
  | cons first heap ih =>
    have one : ∀ {k : AnyImpl} {l : Nat},
        k.handles[l]? = some (some place) → 1 ≤ k.handles.count (some place) :=
      fun found => count_pos_iff.mpr (mem_of_getElem? found)
    rw [slotCount]
    cases a with
    | zero =>
      have here : first = impl := Option.some.inj inHeap
      cases b with
      | zero =>
        have same : first = other := Option.some.inj otherInHeap
        have apart : i ≠ j := fun equal => different (by rw [equal])
        rw [← same] at heldAgain
        rw [← here] at held
        have counted := two_le_count held heldAgain apart
        omega
      | succ b =>
        have inRest : heap[b]? = some other := otherInHeap
        have rest := slotCount_pos inRest (mem_of_getElem? heldAgain)
        have mine := one held
        rw [here]
        omega
    | succ a =>
      cases b with
      | zero =>
        have here : first = other := Option.some.inj otherInHeap
        have inRest : heap[a]? = some impl := inHeap
        have rest := slotCount_pos inRest (mem_of_getElem? held)
        have mine := one heldAgain
        rw [here]
        omega
      | succ b =>
        have rest := ih inHeap otherInHeap
          fun same => different (by
            cases same
            rfl)
        omega

theorem slot_eq_some {heap : Heap} {root : Handle} {place i inner : Nat} :
    (heap.graph root).slot place i = some inner ↔
      ∃ impl, heap[place]? = some impl ∧ impl.handles[i]? = some (some inner) := by
  unfold graph
  simp only [Option.bind_eq_some_iff, Option.join_eq_some_iff]

end Heap

namespace AnyGraph

variable (graph : AnyGraph)

def source : RootedGraph Nat Nat (Option AnyImpl) := graph.heap.graph graph.root

variable {graph}

theorem one_lt_refCount {place : Nat} (shared : graph.source.Shared place) :
    1 < graph.refCount place := by
  unfold refCount
  cases shared with
  | root atRoot held =>
    rcases Heap.slot_eq_some.mp held with ⟨impl, inHeap, inSlot⟩
    have counted := Heap.slotCount_pos inHeap (mem_of_getElem? inSlot)
    have atRoot : graph.root = some place := atRoot
    rw [if_pos atRoot]
    omega
  | slots held heldAgain different =>
    rcases Heap.slot_eq_some.mp held with ⟨impl, inHeap, inSlot⟩
    rcases Heap.slot_eq_some.mp heldAgain with ⟨other, otherInHeap, otherSlot⟩
    have counted := Heap.two_le_slotCount inHeap otherInHeap inSlot otherSlot different
    omega

theorem inside_of_slot {holder place i : Nat} (held : graph.source.slot holder i = some place) :
    place < graph.heap.length := by
  rcases Heap.slot_eq_some.mp held with ⟨impl, inHeap, inSlot⟩
  exact graph.slotsInside impl (mem_of_getElem? inHeap) place (mem_of_getElem? inSlot)

end AnyGraph

end Coast
