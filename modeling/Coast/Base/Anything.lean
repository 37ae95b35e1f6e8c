import Coast.Base.Bytes
import Mathlib.Data.List.Nodup

/-!
# Anythings

An `Anything` is a handle on a reference counted implementation object, or on
none.  The objects live in a heap; a tree of the heap is the value that a
program sees when it follows the handles.
-/

namespace Coast

/-- The slots of an array, in order.  A slot without a key carries the empty
string, as `AnyKeyAssoc` does. -/
abbrev Slots (α : Type) := List (Bytes × α)

namespace Slots

variable {α : Type}

def findIndex (slots : Slots α) (key : Bytes) : Option Nat :=
  if cstr key = [] then none
  else slots.findIdx? (fun slot => slot.1 = cstr key)

def isDefined (slots : Slots α) (key : Bytes) : Bool := (findIndex slots key).isSome

def lookup (slots : Slots α) (key : Bytes) : Option α :=
  (findIndex slots key).bind fun i => slots[i]?.map Prod.snd

def append (slots : Slots α) (value : α) : Slots α := slots ++ [([], value)]

def setIndex (slots : Slots α) (i : Nat) (value : α) : Slots α :=
  slots.modify i fun slot => (slot.1, value)

def setKey (slots : Slots α) (key : Bytes) (value : α) : Slots α :=
  match findIndex slots key with
  | some i => setIndex slots i value
  | none => slots ++ [(cstr key, value)]

def keys (slots : Slots α) : List Bytes := (slots.map Prod.fst).filter (· ≠ [])

/-- What `AnyArrayImpl` guarantees about its keys. -/
structure KeysOk (slots : Slots α) : Prop where
  distinct : slots.keys.Nodup
  nulFree : ∀ key ∈ slots.keys, NulFree key

@[simp]
theorem keys_append (left right : Slots α) : keys (left ++ right) = left.keys ++ right.keys := by
  simp [keys]

@[simp]
theorem keys_nil : keys ([] : Slots α) = [] := rfl

theorem keys_cons (key : Bytes) (value : α) (slots : Slots α) :
    keys ((key, value) :: slots) = (if key = [] then [] else [key]) ++ slots.keys := by
  by_cases unnamed : key = [] <;> simp [keys, unnamed]

theorem findIndex_eq_none {slots : Slots α} {key : Bytes}
    (absent : cstr key ∉ slots.keys) : findIndex slots key = none := by
  unfold findIndex
  split
  · rfl
  · rename_i named
    rw [List.findIdx?_eq_none_iff]
    intro slot member
    rw [decide_eq_false_iff_not]
    intro same
    apply absent
    rw [← same]
    exact List.mem_filter.mpr ⟨List.mem_map_of_mem member, by simpa [same] using named⟩

theorem setKey_of_notMem {slots : Slots α} {key : Bytes} (value : α)
    (nulFree : NulFree key) (absent : key ∉ slots.keys) :
    setKey slots key value = slots ++ [(key, value)] := by
  have same := cstr_of_nulFree nulFree
  unfold setKey
  rw [findIndex_eq_none (by rwa [same]), same]

end Slots

/-- The value of a tree-shaped `Anything`.  A `double` is given by the text
that `AnyDoubleImpl` keeps of it, an object by its address. -/
inductive Anything where
  | null
  | long (value : Int64)
  | charPtr (value : Bytes)
  | double (text : Bytes)
  | voidBuf (value : Bytes)
  | object (address : BitVec 64)
  | array (slots : List (Bytes × Anything))

namespace Anything

mutual

/-- A tree of Null, Long, String, binary buffer and array nodes as the
library can hold it: the keys of an array differ, no key contains a NUL and
the length of a buffer is a `long`. -/
def Plain : Anything → Prop
  | null => True
  | long _ => True
  | charPtr _ => True
  | double _ => False
  | voidBuf value => value.length < 2 ^ 63
  | object _ => False
  | array slots => Slots.KeysOk slots ∧ PlainSlots slots

def PlainSlots : List (Bytes × Anything) → Prop
  | [] => True
  | (_, value) :: slots => Plain value ∧ PlainSlots slots

end

end Anything

abbrev PlainAnything := { any : Anything // any.Plain }

/-- A handle: no implementation, or the place of one in the heap. -/
abbrev Handle := Option Nat

/-- An implementation; the slots of an array are handles. -/
inductive AnyImpl where
  | long (value : Int64)
  | charPtr (value : Bytes)
  | double (text : Bytes)
  | voidBuf (value : Bytes)
  | object (address : BitVec 64)
  | array (slots : Slots Handle)
  deriving DecidableEq, Repr

/-- The implementations by their places. -/
abbrev Heap := List AnyImpl

namespace Heap

def impl (heap : Heap) (handle : Handle) : Option AnyImpl := handle.bind fun place => heap[place]?

def alloc (heap : Heap) (impl : AnyImpl) : Handle × Heap := (some heap.length, heap ++ [impl])

mutual

/-- The handle leads to this tree. -/
def Unfolds (heap : Heap) : Anything → Handle → Prop
  | .null, handle => handle = none
  | .long value, handle => heap.impl handle = some (.long value)
  | .charPtr value, handle => heap.impl handle = some (.charPtr value)
  | .double text, handle => heap.impl handle = some (.double text)
  | .voidBuf value, handle => heap.impl handle = some (.voidBuf value)
  | .object address, handle => heap.impl handle = some (.object address)
  | .array trees, handle => ∃ slots,
      heap.impl handle = some (.array slots) ∧ UnfoldsSlots heap trees slots

def UnfoldsSlots (heap : Heap) : List (Bytes × Anything) → Slots Handle → Prop
  | [], slots => slots = []
  | (key, tree) :: trees, slots => ∃ handle rest,
      slots = (key, handle) :: rest ∧ Unfolds heap tree handle ∧ UnfoldsSlots heap trees rest

end

theorem impl_append {heap : Heap} {handle : Handle} {impl : AnyImpl}
    (found : heap.impl handle = some impl) (more : Heap) :
    Heap.impl (heap ++ more) handle = some impl := by
  cases handle with
  | none => cases found
  | some place =>
    have found : heap[place]? = some impl := found
    have inside := (List.getElem?_eq_some_iff.mp found).choose
    change (heap ++ more)[place]? = some impl
    rw [List.getElem?_append_left inside, found]

@[simp]
theorem impl_alloc (heap : Heap) (impl : AnyImpl) :
    Heap.impl (heap ++ [impl]) (some heap.length) = some impl := by
  simp [Heap.impl]

mutual

theorem Unfolds.append {heap : Heap} (more : Heap) :
    ∀ {tree : Anything} {handle : Handle}, Unfolds heap tree handle →
      Unfolds (heap ++ more) tree handle
  | .null, _, seen => seen
  | .long _, _, seen => impl_append seen more
  | .charPtr _, _, seen => impl_append seen more
  | .double _, _, seen => impl_append seen more
  | .voidBuf _, _, seen => impl_append seen more
  | .object _, _, seen => impl_append seen more
  | .array _, _, ⟨slots, found, inside⟩ =>
    ⟨slots, impl_append found more, UnfoldsSlots.append more inside⟩

theorem UnfoldsSlots.append {heap : Heap} (more : Heap) :
    ∀ {trees : List (Bytes × Anything)} {slots : Slots Handle},
      UnfoldsSlots heap trees slots → UnfoldsSlots (heap ++ more) trees slots
  | [], _, seen => seen
  | _ :: _, _, ⟨handle, rest, same, first, others⟩ =>
    ⟨handle, rest, same, Unfolds.append more first, UnfoldsSlots.append more others⟩

end

mutual

theorem Unfolds.unique {heap : Heap} :
    ∀ {left right : Anything} {handle : Handle},
      Unfolds heap left handle → Unfolds heap right handle → left = right
  | left, right, none, seenLeft, seenRight => by
      have leftNull : left = .null := by
        cases left <;> simp_all [Unfolds, impl]
      have rightNull : right = .null := by
        cases right <;> simp_all [Unfolds, impl]
      rw [leftNull, rightNull]
  | .array left, .array right, some place, ⟨_, foundLeft, insideLeft⟩,
      ⟨_, foundRight, insideRight⟩ => by
      rw [foundLeft] at foundRight
      cases foundRight
      rw [UnfoldsSlots.unique insideLeft insideRight]
  | .long _, right, some place, seenLeft, seenRight => by
      cases right <;> simp_all [Unfolds]
  | .charPtr _, right, some place, seenLeft, seenRight => by
      cases right <;> simp_all [Unfolds]
  | .double _, right, some place, seenLeft, seenRight => by
      cases right <;> simp_all [Unfolds]
  | .voidBuf _, right, some place, seenLeft, seenRight => by
      cases right <;> simp_all [Unfolds]
  | .object _, right, some place, seenLeft, seenRight => by
      cases right <;> simp_all [Unfolds]
  | .null, _, some place, seenLeft, _ => by cases seenLeft
  | .array _, .null, some place, _, seenRight => by cases seenRight
  | .array _, .long _, some place, ⟨_, found, _⟩, seenRight => by
      simp_all [Unfolds]
  | .array _, .charPtr _, some place, ⟨_, found, _⟩, seenRight => by
      simp_all [Unfolds]
  | .array _, .double _, some place, ⟨_, found, _⟩, seenRight => by
      simp_all [Unfolds]
  | .array _, .voidBuf _, some place, ⟨_, found, _⟩, seenRight => by
      simp_all [Unfolds]
  | .array _, .object _, some place, ⟨_, found, _⟩, seenRight => by
      simp_all [Unfolds]

/-- A handle leads to one tree only. -/
theorem UnfoldsSlots.unique {heap : Heap} :
    ∀ {left right : List (Bytes × Anything)} {slots : Slots Handle},
      UnfoldsSlots heap left slots → UnfoldsSlots heap right slots → left = right
  | [], [], _, _, _ => rfl
  | [], _ :: _, _, seenLeft, ⟨_, _, same, _⟩ => by
      cases seenLeft.symm.trans same
  | _ :: _, [], _, ⟨_, _, same, _⟩, seenRight => by
      cases same.symm.trans seenRight
  | (_, _) :: _, (_, _) :: _, _, ⟨_, _, sameLeft, firstLeft, restLeft⟩,
      ⟨_, _, sameRight, firstRight, restRight⟩ => by
      cases sameLeft.symm.trans sameRight
      rw [Unfolds.unique firstLeft firstRight, UnfoldsSlots.unique restLeft restRight]

end

end Heap

end Coast
