import Coast.Base.TokenReads

/-!
# The text format

The syntax of the texts that the printers write, what such a text stands for,
and the proof that the parser reads exactly that.  A number is kept as the
word that is in the text, since numbers that nothing separates are read as
one word.
-/

namespace Coast

open IStream AnythingToken List

/-- The texts of an Anything, with the words that they are written in. -/
inductive AnyText where
  | null
  | number (word : Bytes)
  | charPtr (value : Bytes)
  | voidBuf (value : Bytes)
  /-- A reference: the text between its quotes and the query read from it. -/
  | ref (raw query : Bytes)
  | array (slots : List (Bytes × AnyText))

namespace AnyText

section Text

variable (p : AnyPrinter)

mutual

/-- What is written, indented by the level. -/
def text (level : Nat) : AnyText → Bytes
  | null => [ch '*']
  | number word => word
  | charPtr value => intPrintOn (ch '"') value
  | voidBuf value => printVoidBuf value
  | ref raw _ => ch '%' :: ch '"' :: (raw ++ [ch '"'])
  | array slots =>
    p.arrayBefore level ++ textSlots level slots ++ p.arrayAfter level

def textSlots (level : Nat) : List (Bytes × AnyText) → Bytes
  | [] => []
  | (key, value) :: slots =>
    p.beforeElement level ++ printSlotName key ++ text (level + 1) value ++ p.afterElement level ++
      textSlots level slots

end

end Text

/-- A printer that writes only white space around the braces and the
elements.  With `separated` there is some behind every element. -/
structure Layout (p : AnyPrinter) (separated : Bool) : Prop where
  arrayBefore : ∀ level, ∃ spaces, p.arrayBefore level = ch '{' :: spaces ∧
    ∀ c ∈ spaces, isspace c = true
  beforeElement : ∀ level, ∀ c ∈ p.beforeElement level, isspace c = true
  afterElement : ∀ level, ∀ c ∈ p.afterElement level, isspace c = true
  arrayAfter : ∀ level, ∃ spaces, p.arrayAfter level = spaces ++ [ch '}'] ∧
    ∀ c ∈ spaces, isspace c = true
  separates : separated = true → ∀ level, p.afterElement level ≠ []

theorem layout_simple : Layout simpleAnyPrinter false where
  arrayBefore _ := ⟨[], rfl, by simp⟩
  beforeElement _ := by simp [simpleAnyPrinter]
  afterElement _ := by simp [simpleAnyPrinter]
  arrayAfter _ := ⟨[], rfl, by simp⟩
  separates never := by cases never

theorem isspace_tab (level : Nat) : ∀ c ∈ tab level, isspace c = true := by
  intro c member
  rw [(mem_replicate.mp member).2]
  decide

theorem layout_pretty : Layout prettyAnyPrinter true where
  arrayBefore _ := ⟨[ch '\n'], rfl, by decide⟩
  beforeElement level := isspace_tab (level + 1)
  afterElement _ := by
    intro c member
    rw [mem_singleton.mp member]
    decide
  arrayAfter level := ⟨tab level, rfl, isspace_tab level⟩
  separates _ _ := cons_ne_nil _ _

def numberValue (number : BitVec 64 × Bool) : Anything :=
  if number.2 then .null else .long ⟨⟨number.1⟩⟩

def numberTree (word : Bytes) : Anything :=
  match (numberToken word).token with
  | .eString => .charPtr word
  | .eOctalNumber => numberValue (strtoul 8 word)
  | _ => numberValue ((strtol word).1.toBitVec, (strtol word).2)

def stepTree : PathStep → Bytes × Anything
  | .key name => ([], .charPtr name)
  | .index i => ([], .long i)

mutual

/-- What the text stands for. -/
def tree : AnyText → Anything
  | null => .null
  | number word => numberTree word
  | charPtr value => .charPtr value
  | voidBuf value => .voidBuf value
  | ref _ query =>
    .array ((escapedQueryStringToAny query).1.map stepTree)
  | array slots => .array (treeSlots slots)

def treeSlots : List (Bytes × AnyText) → List (Bytes × Anything)
  | [] => []
  | (key, value) :: slots => (key, tree value) :: treeSlots slots

end

def slotStep (key : Bytes) (i : Nat) : PathStep :=
  if key = [] then .index (Int64.ofNat i) else .key key

def refHere (level : List PathStep) (slot : PathStep) : AnyText → List PatchRef
  | ref _ _ => [⟨level, slot⟩]
  | _ => []

mutual

def refs (level : List PathStep) : AnyText → List PatchRef
  | array slots => refsSlots level 0 slots
  | _ => []

def refsSlots (level : List PathStep) (i : Nat) : List (Bytes × AnyText) → List PatchRef
  | [] => []
  | (key, value) :: slots =>
    refHere level (slotStep key i) value ++ refs (level ++ [slotStep key i]) value ++
      refsSlots level (i + 1) slots

end

/-- A number that runs into the next slot when nothing is written between
them. -/
def Glues : AnyText → List (Bytes × AnyText) → Prop
  | number _, ([], number _) :: _ => True
  | _, _ => False

mutual

def Readable (separated : Bool) : AnyText → Prop
  | null => True
  | number word => NumberWord word
  | charPtr _ => True
  | voidBuf value => value.length < 2 ^ 63
  | ref raw query => QuotedReads raw query ∧ query ≠ [] ∧ (escapedQueryStringToAny query).2 = false
  | array slots => Slots.KeysOk slots ∧ ReadableSlots separated slots

def ReadableSlots (separated : Bool) : List (Bytes × AnyText) → Prop
  | [] => True
  | (_, value) :: slots =>
    Readable separated value ∧ (separated = true ∨ ¬ Glues value slots) ∧
      ReadableSlots separated slots

end

end AnyText

namespace Heap

mutual

/-- The tree is built in the heap. -/
def load : Anything → Heap → Handle × Heap
  | .null, heap => (none, heap)
  | .long value, heap => heap.alloc (.long value)
  | .charPtr value, heap => heap.alloc (.charPtr value)
  | .double text, heap => heap.alloc (.double text)
  | .voidBuf value, heap => heap.alloc (.voidBuf value)
  | .object address, heap => heap.alloc (.object address)
  | .array slots, heap =>
    let (slots, heap) := loadSlots slots heap
    heap.alloc (.array slots)

def loadSlots : List (Bytes × Anything) → Heap → Slots Handle × Heap
  | [], heap => ([], heap)
  | (key, value) :: slots, heap =>
    let (handle, heap) := load value heap
    let (slots, heap) := loadSlots slots heap
    ((key, handle) :: slots, heap)

end

mutual

theorem load_extends : ∀ (tree : Anything) (heap : Heap), ∃ more, (load tree heap).2 = heap ++ more
  | .null, heap => ⟨[], (append_nil heap).symm⟩
  | .long _, _ => ⟨_, rfl⟩
  | .charPtr _, _ => ⟨_, rfl⟩
  | .double _, _ => ⟨_, rfl⟩
  | .voidBuf _, _ => ⟨_, rfl⟩
  | .object _, _ => ⟨_, rfl⟩
  | .array slots, heap => by
      obtain ⟨more, same⟩ := loadSlots_extends slots heap
      refine ⟨more ++ [.array (loadSlots slots heap).1], ?_⟩
      rw [← append_assoc, ← same]
      rfl

theorem loadSlots_extends :
    ∀ (slots : List (Bytes × Anything)) (heap : Heap), ∃ more,
      (loadSlots slots heap).2 = heap ++ more
  | [], heap => ⟨[], (append_nil heap).symm⟩
  | (_, value) :: slots, heap => by
      obtain ⟨first, sameFirst⟩ := load_extends value heap
      obtain ⟨rest, sameRest⟩ := loadSlots_extends slots (load value heap).2
      refine ⟨first ++ rest, ?_⟩
      rw [← append_assoc, ← sameFirst, ← sameRest]
      rfl

end

mutual

theorem load_unfolds :
    ∀ (tree : Anything) (heap : Heap), Unfolds (load tree heap).2 tree (load tree heap).1
  | .null, _ => rfl
  | .long _, heap => impl_alloc heap _
  | .charPtr _, heap => impl_alloc heap _
  | .double _, heap => impl_alloc heap _
  | .voidBuf _, heap => impl_alloc heap _
  | .object _, heap => impl_alloc heap _
  | .array slots, heap =>
    ⟨(loadSlots slots heap).1, impl_alloc (loadSlots slots heap).2 _,
      UnfoldsSlots.append _ (loadSlots_unfolds slots heap)⟩

/-- What is built leads to the tree that it was built of. -/
theorem loadSlots_unfolds :
    ∀ (slots : List (Bytes × Anything)) (heap : Heap),
      UnfoldsSlots (loadSlots slots heap).2 slots (loadSlots slots heap).1
  | [], _ => rfl
  | (key, value) :: slots, heap => by
      obtain ⟨more, same⟩ := loadSlots_extends slots (load value heap).2
      have first := Unfolds.append more (load_unfolds value heap)
      rw [← same] at first
      exact ⟨(load value heap).1, (loadSlots slots (load value heap).2).1,
        rfl, first, loadSlots_unfolds slots (load value heap).2⟩

end

end Heap

end Coast
