import Coast.Base.AnyAccess
import Coast.Base.PrintImport

/-!
# The table compressor

A `TableCompressor` renames the slots of an Anything that its configuration
lists to short names and prints the result; some values are replaced by short
values in the same way.
-/

namespace Coast

namespace TableCompressor

def keyAt (index : Nat) : Byte :=
  let index := if 52 ≤ index then 51 else index
  if index < 26 then BitVec.ofNat 8 (index + 97)
  else BitVec.ofNat 8 (index + 65 - 26)

def calcKey (index : Nat) : Bytes :=
  (if 0 < index / 52 then calcKey (index / 52 - 1) else []) ++ [keyAt (index % 52)]
termination_by index
decreasing_by omega

mutual

/-- `InstallConfig`: the names and Strings of `part` are written into `state`
from `index` on.  What a named slot holds is written behind the name and
overwritten by the next one. -/
def installConfig (index : Nat) (state : Slots Anything) : Anything → Slots Anything
  | .charPtr text => state.at_ index fun _ => .charPtr (cstr text)
  | .array part => installSlots index state part
  | _ => state

def installSlots (index : Nat) (state : Slots Anything) : List (Bytes × Anything) → Slots Anything
  | [] => state
  | (slotname, value) :: part =>
    if slotname ≠ [] then
      let state := state.at_ index fun _ => .charPtr (cstr slotname)
      installSlots (index + 1) (installConfig (index + 1) state value) part
    else
      match value with
      | .charPtr text =>
        installSlots (index + 1) (state.at_ index fun _ => .charPtr (cstr text)) part
      | _ => installSlots index state part

end

/-- `ExpandConfig`: an entry `{ /Expand Path }` stands for what
`config.LookupPath` finds. -/
def expandConfig (config : Bytes → Option Anything)
    (state : Slots Anything) (index : Nat) : Slots Anything :=
  match state[index]? with
  | some (_, .array ((tag, value) :: entry)) =>
    if cstr tag = lit "Expand" then
      let path := (Anything.array ((tag, value) :: entry)).atKey (lit "Expand")
      match config path.charPtrText with
      | some toExpand =>
        installConfig index (state.eraseIdx index) toExpand
      | none => state
    else state
  | _ => state

/-- The first loop of `MakeTable`, from the last entry to the first. -/
def expandEntries (config : Bytes → Option Anything) (state : Slots Anything) : Slots Anything :=
  (List.range state.length).reverse.foldl (expandConfig config) state

def mapEntry (state : Slots Anything) (map : Slots Bytes) (i : Nat) : Slots Bytes :=
  match state[i]? with
  | some (_, .charPtr slotname) => map.setKey (cstr slotname) (calcKey i)
  | _ => map

def makeTable (baseState : Anything) (config : Bytes → Option Anything) : Slots Bytes :=
  (List.range baseState.slots.length).foldl (mapEntry (expandEntries config baseState.slots)) []

def makeReverseTable (state : Slots Bytes) : Slots Bytes :=
  state.foldl (fun revKeyTable slot => revKeyTable.setKey (cstr slot.2) (cstr slot.1)) []

end TableCompressor

/-- What `fMap` holds. -/
structure TableCompressor where
  key2UriMap : Slots Bytes
  uri2KeyMap : Slots Bytes
  val2UriMap : Slots Bytes
  uri2ValMap : Slots Bytes
  valMapTags : Anything

namespace TableCompressor

/-- The tables of the configuration and their inverses. -/
def init (config : Bytes → Option Anything) : Bool × TableCompressor :=
  match config (lit "SecurityModule.TableCompressor") with
  | none => (false, ⟨[], [], [], [], .null⟩)
  | some tableCompressorConfig =>
    let key2UriMap := makeTable (tableCompressorConfig.atKey (lit "Key2UriMap")) config
    let val2UriMap := makeTable (tableCompressorConfig.atKey (lit "Val2UriMap")) config
    (true,
      { key2UriMap, uri2KeyMap := makeReverseTable key2UriMap
        val2UriMap, uri2ValMap := makeReverseTable val2UriMap
        valMapTags := tableCompressorConfig.atKey (lit "ValMapTags") })

variable (tables : TableCompressor)

/-- The assignment to `dataOut` in one turn of `DoCompress`: the name of the
slot and its value.  A listed slot without a text is left out. -/
def compressSlot (slot : Bytes × Anything) : Option (Bytes × Anything) :=
  match tables.key2UriMap.lookup slot.1 with
  | none => some (cstr slot.1, slot.2)
  | some extSlotname =>
    let intVal := slot.2.charPtrText
    if intVal = [] then none
    else if tables.valMapTags.contains (cstr slot.1) then
      match tables.val2UriMap.lookup intVal with
      | some value => some (cstr extSlotname, .charPtr (cstr value))
      | none => some (cstr extSlotname, slot.2)
    else some (cstr extSlotname, slot.2)

def compressed (dataIn : Anything) : Slots Anything :=
  Slots.setKeys [] (dataIn.slots.filterMap tables.compressSlot)

def anyOf (slots : Slots Anything) : Anything := if slots.isEmpty then .null else .array slots

def doCompress (dataIn : Anything) : Bytes := printOn (anyOf (tables.compressed dataIn)) false

/-- One turn of `DoExpand` for a slot of `dataIn` whose value has the text
`compVal`: the name to assign to and the value, if it is a short one. -/
def expandSlot (slotname : Bytes) (compVal : Option Bytes) : Bytes × Option Bytes :=
  match tables.uri2KeyMap.lookup slotname with
  | none => (cstr slotname, none)
  | some intSlotname =>
    (cstr intSlotname,
      if tables.valMapTags.contains (cstr intSlotname) then
        (compVal.bind tables.uri2ValMap.lookup).map cstr
      else none)

def expandSlots (heap : Heap) : Slots Handle → Heap × Slots Handle
  | [] => (heap, [])
  | (slotname, value) :: slots =>
    match tables.expandSlot slotname (heap.asCharPtr value) with
    | (name, none) =>
      let (heap, others) := expandSlots heap slots
      (heap, (name, value) :: others)
    | (name, some text) =>
      let (value, heap) := heap.alloc (.charPtr text)
      let (heap, others) := expandSlots heap slots
      (heap, (name, value) :: others)

/-- The text is imported and its names and values are expanded. -/
def doExpand (env : ParserEnv) (depth : Nat) (scrambledText : Bytes) : Imported :=
  let dataIn := importText env depth false scrambledText
  if dataIn.ok then
    let (heap, assigned) := tables.expandSlots dataIn.heap (dataIn.heap.slots dataIn.any)
    let dataOut := Slots.setKeys [] assigned
    if dataOut.isEmpty then ⟨true, none, heap⟩
    else
      let (any, heap) := heap.alloc (.array dataOut)
      ⟨true, any, heap⟩
  else ⟨true, none, dataIn.heap⟩

end TableCompressor

/-!
## The expansion as a function on trees

What `DoExpand` makes in the heap is seen as the expansion of the tree that
is imported.
-/

open Heap

namespace TableCompressor

variable (tables : TableCompressor)

/-- The slot that a slot of the imported Anything is expanded to. -/
def expandedSlot (slot : Bytes × Anything) : Bytes × Anything :=
  match tables.expandSlot slot.1 slot.2.asCharPtr with
  | (name, none) => (name, slot.2)
  | (name, some text) => (name, .charPtr text)

def expanded (dataIn : Anything) : Slots Anything :=
  Slots.setKeys [] (dataIn.slots.map tables.expandedSlot)

theorem slots_anyOf (slots : Slots Anything) : (anyOf slots).slots = slots := by
  cases slots <;> rfl

theorem anyOf_cases (slots : Slots Anything) :
    slots = [] ∧ anyOf slots = .null ∨ slots ≠ [] ∧ anyOf slots = .array slots := by
  cases slots with
  | nil => exact Or.inl ⟨rfl, rfl⟩
  | cons slot slots => exact Or.inr ⟨List.cons_ne_nil _ _, rfl⟩

theorem expandSlots_unfolds :
    ∀ {trees : List (Bytes × Anything)} {heap : Heap}
      {handles : Slots Handle}, UnfoldsSlots heap trees handles →
      ∃ more, (tables.expandSlots heap handles).1 = heap ++ more ∧
        UnfoldsSlots (heap ++ more) (trees.map tables.expandedSlot)
          (tables.expandSlots heap handles).2 := by
  intro trees
  induction trees with
  | nil =>
    intro heap handles seen
    cases seen
    exact ⟨[], (List.append_nil heap).symm, rfl⟩
  | cons slot trees ih =>
    intro heap handles seen
    obtain ⟨slotname, tree⟩ := slot
    rcases seen with ⟨handle, rest, rfl, first, others⟩
    rw [List.map_cons]
    unfold expandSlots expandedSlot
    rw [Unfolds.asCharPtr first]
    rcases tables.expandSlot slotname tree.asCharPtr with ⟨name, value⟩
    cases value with
    | none =>
      rcases ih others with ⟨more, grown, tail⟩
      exact ⟨more, grown, handle, _, rfl, Unfolds.append more first, tail⟩
    | some text =>
      have string : Unfolds (heap ++ [.charPtr text]) (.charPtr text)
          (some heap.length) := impl_alloc heap _
      rcases ih (UnfoldsSlots.append [.charPtr text] others) with ⟨more, grown, tail⟩
      have all : heap ++ ([.charPtr text] ++ more) = heap ++ [.charPtr text] ++ more :=
        (List.append_assoc _ _ _).symm
      refine ⟨[.charPtr text] ++ more, ?_, ?_⟩
      · rw [all]
        exact grown
      · rw [all]
        exact ⟨some heap.length, _, rfl, Unfolds.append more string, tail⟩

/-- Expanding a text that imports gives the expanded tree. -/
theorem doExpand_unfolds (env : ParserEnv) (depth : Nat) {text : Bytes}
    {tree : Anything} (imported : Imports env depth text tree) :
    (tables.doExpand env depth text).ok = true ∧
      Unfolds (tables.doExpand env depth text).heap (anyOf (tables.expanded tree))
        (tables.doExpand env depth text).any := by
  rcases tables.expandSlots_unfolds (Unfolds.slots imported.2) with ⟨more, grown, assigned⟩
  have dataOut : UnfoldsSlots _ (tables.expanded tree)
      (Slots.setKeys [] _) :=
    UnfoldsSlots.setKeys assigned (show UnfoldsSlots _ [] [] from rfl)
  unfold doExpand
  rw [if_pos imported.1]
  simp only [grown]
  rcases anyOf_cases (tables.expanded tree) with ⟨empty, same⟩ | ⟨some, same⟩
  · rw [empty] at dataOut
    rw [same, show Slots.setKeys [] _ = [] from dataOut]
    exact ⟨rfl, rfl⟩
  · rw [same]
    cases tree : tables.expanded tree with
    | nil => exact absurd tree some
    | cons slot slots =>
      rw [tree] at dataOut
      rcases dataOut with ⟨handle, rest, shape, first, others⟩
      rw [shape]
      exact ⟨rfl, _, impl_alloc _ _, handle, rest, rfl,
        Unfolds.append _ first, UnfoldsSlots.append _ others⟩

end TableCompressor

end Coast
