import Coast.Base.AnyReference
import Coast.Base.JoinedPath
import Coast.Base.ResolvePath
import Coast.Base.AnythingParser

/-!
# Finding a slot and removing it

`SlotFinder` goes to the Anything that has the last slot of a path and makes
what is missing on the way.  `SlotCleaner` removes that slot.
-/

namespace Coast

/-- The variables of `SlotFinder::IntOperate`. -/
structure SlotFinder where
  heap : Heap
  dest : Handle
  destSlotname : Bytes
  destIdx : Int
  deriving DecidableEq, Repr

namespace SlotFinder

abbrev Access := Heap → Handle → Heap × Handle × Option AnyRef

def atKey (k : Bytes) : Access := fun heap any => heap.doAtKey any k

def atIndex (i : Int) : Access := fun heap any => heap.doAt any i

def touch (st : SlotFinder) (access : Access) : SlotFinder :=
  { st with
    heap := (access st.heap st.dest).1
    dest := (access st.heap st.dest).2.1 }

def value (st : SlotFinder) (access : Access) : Handle :=
  match (access st.heap st.dest).2.2 with
  | none => (access st.heap st.dest).2.1
  | some ref => (access st.heap st.dest).1.get ref

def assign (st : SlotFinder) (access : Access) (any : Handle) : SlotFinder :=
  match (access st.heap st.dest).2.2 with
  | none => { st.touch access with dest := any }
  | some ref =>
    { st.touch access with
      heap := (access st.heap st.dest).1.put ref any }

def makeArray (st : SlotFinder) (access : Access) : SlotFinder :=
  { st with heap := st.heap ++ [AnyImpl.array []] }.assign access (some st.heap.length)

def descend (st : SlotFinder) (access : Access) : SlotFinder :=
  { st.touch access with dest := st.value access }

def into (st : SlotFinder) (access : Access) : SlotFinder :=
  (if st.value access = none then (st.touch access).makeArray access
    else st.touch access).descend access

/-- Down to the slot that holds the last token. -/
def walkTokens : List Bytes → SlotFinder → Bool × SlotFinder
  | [], st => (false, st)
  | [k], st => (true, { st with destSlotname := k })
  | k :: s :: tokens, st =>
    let st :=
      if st.heap.findIndex st.dest k 0 0 = none ∨ st.value (atKey k) = none then
        st.makeArray (atKey k)
      else st
    walkTokens (s :: tokens) (st.descend (atKey k))

/-- The index at the end of a segment is taken off. -/
def readIndex (delim indexdelim : Byte) (st : SlotFinder) : SlotFinder :=
  if st.destSlotname = [] then st
  else
    let s := st.destSlotname.takeWhile fun c => c ≠ delim && c ≠ indexdelim
    let remainder := st.destSlotname.drop s.length
    { st with
      destIdx := (asLong s (-1)).1.toInt
      destSlotname :=
        if remainder.head? = some delim then remainder.tail
        else remainder }

/-- The path is walked segment by segment, with the indices between them. -/
def intOperate (delim indexdelim : Byte) : Nat → SlotFinder → Bool × SlotFinder
  | 0, st => (false, st)
  | fuel + 1, st =>
    match st.destSlotname.idxOf? indexdelim with
    | none => walkTokens (stringTokens delim st.destSlotname) st
    | some lIdxDelim =>
      let s := st.destSlotname.take lIdxDelim
      let rest := st.destSlotname.drop (lIdxDelim + 1)
      let before := intOperate delim indexdelim fuel { st with destSlotname := s }
      let st :=
        if s = [] then st
        else if before.1 then before.2.into (atKey before.2.destSlotname)
        else before.2
      let st := readIndex delim indexdelim { st with destSlotname := rest }
      if st.destSlotname = [] then (true, st)
      else
        intOperate delim indexdelim fuel (st.into (atIndex st.destIdx))

end SlotFinder

namespace SlotCleaner

def clean (st : SlotFinder) (access : SlotFinder.Access)
    (removeSlot : Heap → Handle → Heap) (removeLast : Bool) : Heap :=
  let heap := (st.touch access).heap
  let sz := heap.getSize (st.value access)
  if removeLast && 1 < sz then
    heap.remove (st.value access) ((sz - 1 : Nat) : Int)
  else removeSlot heap (st.touch access).dest

/-- The slot that the path leads to is removed, or its last element. -/
def operate (heap : Heap) (dest : Handle) (slotName : Bytes)
    (removeLast : Bool) (delim indexdelim : Byte) : Heap :=
  if slotName = [] then heap
  else
    match Anything.lookupPath heap dest slotName delim indexdelim with
    | (heap, none) => heap
    | (heap, some _) =>
      let (found, st) := SlotFinder.intOperate delim indexdelim
        (slotName.length + 1) ⟨heap, dest, slotName, -1⟩
      if found = false then st.heap
      else if st.destSlotname ≠ [] then
        clean st (SlotFinder.atKey st.destSlotname)
          (fun heap any => heap.removeKey any st.destSlotname) removeLast
      else if st.destIdx ≠ -1 then
        clean st (SlotFinder.atIndex st.destIdx)
          (fun heap any => heap.remove any st.destIdx) removeLast
      else st.heap

end SlotCleaner

end Coast
