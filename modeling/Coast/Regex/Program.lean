import Coast.Base.Bytes
import Mathlib.Data.List.Basic

/-!
# `REBitSet`

A set of the 256 characters as four words of 64 bits.  The table of the
singletons is written out for words of 32 bits, so that its upper half is
zero.
-/

namespace Coast

structure REBitSet where
  fSet : List (BitVec 64)
  size : fSet.length = 4
  deriving DecidableEq

namespace REBitSet

def new (setall : Bool) : REBitSet where
  fSet := List.replicate 4 (if setall then BitVec.allOnes 64 else 0)
  size := List.length_replicate

def ofTable (first second third fourth : BitVec 64) : REBitSet where
  fSet := [first, second, third, fourth]
  size := rfl

/-- `fgcSingletons`: the initializer ends with the 32nd power of two. -/
def fgcSingletons (i : Nat) : BitVec 64 := if i < 32 then BitVec.twoPow 64 i else 0

def slot (index : Byte) : BitVec 64 := fgcSingletons (index.toNat % 64)

def bucket (s : REBitSet) (index : Byte) : BitVec 64 := s.fSet.getD (index.toNat / 64) 0

def isMember (s : REBitSet) (bit : Byte) : Bool := s.bucket bit &&& slot bit ≠ 0

def set (s : REBitSet) (bit : Byte) : REBitSet where
  fSet := s.fSet.set (bit.toNat / 64) (s.bucket bit ||| slot bit)
  size := by rw [List.length_set, s.size]

def setRange (s : REBitSet) (first last : Byte) : REBitSet :=
  (List.range' first.toNat (last.toNat + 1 - first.toNat)).foldl
    (fun s c => s.set (BitVec.ofNat 8 c)) s

def union (s b : REBitSet) : REBitSet where
  fSet := List.zipWith (· ||| ·) s.fSet b.fSet
  size := by rw [List.length_zipWith, s.size, b.size]; rfl

def complement (s : REBitSet) : REBitSet where
  fSet := s.fSet.map (~~~ ·)
  size := by rw [List.length_map, s.size]

end REBitSet

/-! ## The sets of the C locale -/

def gcSetIsAlnum : REBitSet := .ofTable 0x0 0x3ff0000 0x7fffffe 0x7fffffe

def gcSetIsAlpha : REBitSet := .ofTable 0x0 0x0 0x7fffffe 0x7fffffe

def gcSetIsBlank : REBitSet := .ofTable 0x200 0x1 0x0 0x0

def gcSetIsCntrl : REBitSet := .ofTable 0xffffffff 0x0 0x0 0x80000000

def gcSetIsDigit : REBitSet := .ofTable 0x0 0x3ff0000 0x0 0x0

def gcSetIsGraph : REBitSet := .ofTable 0x0 0xfffffffe 0xffffffff 0x7fffffff

def gcSetIsLower : REBitSet := .ofTable 0x0 0x0 0x0 0x7fffffe

def gcSetIsPrint : REBitSet := .ofTable 0x0 0xffffffff 0xffffffff 0x7fffffff

def gcSetIsPunct : REBitSet := .ofTable 0x0 0xfc00fffe 0xf8000001 0x78000001

def gcSetIsSpace : REBitSet := .ofTable 0x3e00 0x1 0x0 0x0

def gcSetIsUpper : REBitSet := .ofTable 0x0 0x0 0x7fffffe 0x0

def gcSetIsXDigit : REBitSet := .ofTable 0x0 0x3ff0000 0x7e 0x7e

def gcSetIsNoDigit : REBitSet := .ofTable 0xffffffff 0xfc00ffff 0xffffffff 0xffffffff

def gcSetIsNoAlnum : REBitSet := .ofTable 0xffffffff 0xfc00ffff 0xf8000001 0xf8000001

def gcSetIsNoSpace : REBitSet := .ofTable 0xffffc1ff 0xfffffffe 0xffffffff 0xffffffff

def posixtable : List (Bytes × REBitSet) :=
  [(lit "alnum", gcSetIsAlnum), (lit "alpha", gcSetIsAlpha),
    (lit "blank", gcSetIsBlank), (lit "cntrl", gcSetIsCntrl),
    (lit "digit", gcSetIsDigit), (lit "graph", gcSetIsGraph),
    (lit "lower", gcSetIsLower), (lit "print", gcSetIsPrint),
    (lit "punct", gcSetIsPunct), (lit "space", gcSetIsSpace),
    (lit "upper", gcSetIsUpper), (lit "xdigit", gcSetIsXDigit)]

def posixLookup (cmp : Bytes) : Option REBitSet :=
  (posixtable.find? (fun entry => cmp = entry.1)).map (·.2)

/-!
## Programs of regular expressions

A program is the array of the nodes of a backtracking automaton.  A node says
by a relative offset where to go on, and the offset zero ends a chain.
-/

/-- `RE::eOpCodes`. -/
inductive Opcode where
  | opEnd
  | opBol
  | opEol
  | opAny
  | opAnyOf
  | opBranch
  | opAtom
  | opOpen
  | opClose
  | opBackref
  | opGoto
  | opNothing
  | opReluctantStar
  | opReluctantPlus
  | opReluctantMaybe
  | opBow
  deriving DecidableEq

/-- What the slot `offsetOpdata` of a node holds. -/
inductive OpData where
  | null
  | number (n : Int)
  | text (s : Bytes)
  | set (s : REBitSet)
  deriving DecidableEq

/-- The three slots of a node; a slot that was never set is null. -/
structure Node where
  opcode : Option Opcode
  opdata : OpData
  next : Option Int
  deriving DecidableEq

def Node.null : Node := ⟨none, .null, none⟩

abbrev Program := List Node

namespace Program

def node (program : Program) (i : Nat) : Node := program.getD i .null

def next (program : Program) (i : Nat) : Int := (program.node i).next.getD 0

def setNext (program : Program) (i : Nat) (value : Int) : Program :=
  (program ++ List.replicate (i + 1 - program.length) Node.null).modify i
    (fun node => { node with next := some value })

def setOpdata (program : Program) (i : Nat) (opdata : OpData) : Program :=
  program.modify i (fun node => { node with opdata := opdata })

def fresh (opcode : Opcode) (opdata : OpData) : Node := ⟨some opcode, opdata, some 0⟩

def appendNode (program : Program) (opcode : Opcode) (opdata : OpData) : Nat × Program :=
  (program.length, program ++ [fresh opcode opdata])

def insertNode (program : Program) (opcode : Opcode) (opdata : OpData) (insertAt : Nat) : Program :=
  program.take insertAt ++ fresh opcode opdata :: program.drop insertAt

/-- The loop of `setNextOfEnd`: the last node of the chain from a node.  The
offsets of a chain do not lead in front of the program. -/
def chainEnd (program : Program) : Nat → Nat → Option Nat
  | 0, _ => none
  | fuel + 1, i =>
    if program.next i = 0 then some i
    else program.chainEnd fuel (i + program.next i).toNat

def setNextOfEnd (fuel : Nat) (program : Program) (i pointTo : Nat) : Option Program :=
  (program.chainEnd fuel i).map (fun last => program.setNext last (pointTo - last : Int))

def copyProgram (program : Program) (start len : Nat) : Program := (program.drop start).take len

def appendProgram (program copied : Program) : Nat × Program := (program.length, program ++ copied)

/-- A branch to the terminal and one to nothing, joined behind it. -/
def generateQuestion (fuel : Nat) (program : Program) (terminal : Nat) : Option Program := do
  let program := program.insertNode .opBranch (.number 0) terminal
  let (option, program) := program.appendNode .opBranch (.number 0)
  let program ← program.setNextOfEnd fuel terminal option
  let (nothing, program) := program.appendNode .opNothing (.number 0)
  let program ← program.setNextOfEnd fuel terminal nothing
  program.setNextOfEnd fuel (terminal + 1) nothing

def moreQuestions (fuel : Nat) (copied : Program) : Nat → Program → Nat → Option Program
  | 0, program, _ => some program
  | repetitions + 1, program, chain => do
      let (newTerminal, program) := program.appendProgram copied
      let program ← program.generateQuestion fuel newTerminal
      let program ← program.setNextOfEnd fuel chain newTerminal
      moreQuestions fuel copied repetitions program newTerminal

def generateQuestions (fuel : Nat) (copied program : Program)
    (terminal repetitions : Nat) : Option Program := do
  let program ← program.generateQuestion fuel terminal
  moreQuestions fuel copied (repetitions - 1) program terminal

/-- The nodes of a star around a terminal that is there. -/
def generateStar (fuel : Nat) (program : Program) (terminal : Nat) : Option Program := do
  let program := program.insertNode .opBranch (.number 0) terminal
  let (again, program) := program.appendNode .opBranch (.number 0)
  let program ← program.setNextOfEnd fuel (terminal + 1) again
  let (goBack, program) := program.appendNode .opGoto (.number 0)
  let program ← program.setNextOfEnd fuel (terminal + 1) goBack
  let program ← program.setNextOfEnd fuel (terminal + 1) terminal
  let (option, program) := program.appendNode .opBranch (.number 0)
  let program ← program.setNextOfEnd fuel terminal option
  let (nothing, program) := program.appendNode .opNothing (.number 0)
  program.setNextOfEnd fuel terminal nothing

/-- The nodes of a plus behind a terminal that is there. -/
def generatePlus (fuel : Nat) (program : Program) (terminal : Nat) : Option Program := do
  let (branch, program) := program.appendNode .opBranch (.number 0)
  let program ← program.setNextOfEnd fuel terminal branch
  let (goBack, program) := program.appendNode .opGoto (.number 0)
  let program ← program.setNextOfEnd fuel goBack terminal
  let (option, program) := program.appendNode .opBranch (.number 0)
  let program ← program.setNextOfEnd fuel branch option
  let (nothing, program) := program.appendNode .opNothing (.number 0)
  program.setNextOfEnd fuel terminal nothing

def repeatTerminal (fuel : Nat) (copied : Program) : Nat → Program → Nat → Option (Nat × Program)
  | 0, program, last => some (last, program)
  | repetitions + 1, program, last => do
      let (copy, program) := program.appendProgram copied
      let program ← program.setNextOfEnd fuel last copy
      repeatTerminal fuel copied repetitions program copy

def removeTerminal (program : Program) (terminal : Nat) : Program := program.take terminal

end Program

end Coast
