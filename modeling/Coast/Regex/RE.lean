import Coast.Regex.RECompiler

/-!
# `RE`

The backtracking engine.  `MatchNodes` calls itself for everything that may
have to be taken back, so that the functions take a bound.  Where the source
leaves the program the run stops with an exit.
-/

namespace Coast

/-- The bits of `RE::eMatchFlags`. -/
structure MatchFlags where
  icase : Bool
  multiline : Bool
  dotMatchesNewline : Bool
  deriving DecidableEq

/-- Why matching cannot go on. -/
inductive MatchExit where
  | corruptProgram
  | invalidOpcode
  | outsideProgram
  | negativeLength
  deriving DecidableEq

/-- Where a register starts and where it ends. -/
abbrev Register := Option Nat × Option Nat

abbrev BackRefs := List Nat × List Nat

/-- What a run of `MatchNodes` changes. -/
structure MatchState where
  fRegisters : List Register
  fBackRefs : List BackRefs
  deriving DecidableEq

/-- A program, the text it is matched with, and the flags. -/
structure RE where
  fProgram : Program
  fSearch : Bytes
  fMatchFlags : MatchFlags
  deriving DecidableEq

/-- A member function of the engine: the bound was too small, the run went
wrong, or the function returned. -/
def Match (α : Type) : Type := MatchState → Option (Except MatchExit α × MatchState)

namespace Match

variable {α β : Type}

def bind (first : Match α) (rest : α → Match β) : Match β := fun st =>
  (first st).bind fun
    | (.error exit, st) => some (.error exit, st)
    | (.ok a, st) => rest a st

instance : Monad Match where
  pure a := fun st => some (.ok a, st)
  bind := bind

def endless : Match α := fun _ => none

def exit (e : MatchExit) : Match α := fun st => some (.error e, st)

def modify (f : MatchState → MatchState) : Match Unit := fun st =>
  some (.ok (), f st)

def read (f : MatchState → Except MatchExit α) : Match α := fun st =>
  some (f st, st)

end Match

def writeSlot {α : Type} (slots : List α) (empty : α) (i : Nat) (a : α) : List α :=
  (slots ++ List.replicate (i + 1 - slots.length) empty).set i a

namespace MatchState

def register (st : MatchState) (which : Nat) : Register := st.fRegisters.getD which (none, none)

def setStart (st : MatchState) (which i : Nat) : MatchState :=
  match st.register which with
  | (some _, _) => st
  | (none, stop) =>
    { st with
      fRegisters := writeSlot st.fRegisters (none, none) which (some i, stop) }

def setEnd (st : MatchState) (which i : Nat) : MatchState :=
  match st.register which with
  | (_, some _) => st
  | (start, none) =>
    { st with
      fRegisters := writeSlot st.fRegisters (none, none) which (start, some i) }

def backRefs (st : MatchState) (which : Nat) : BackRefs := st.fBackRefs.getD which ([], [])

def setBackRefs (st : MatchState) (which : Nat) (refs : BackRefs) : MatchState :=
  { st with fBackRefs := writeSlot st.fBackRefs ([], []) which refs }

def pushStart (st : MatchState) (which idx : Nat) : MatchState :=
  st.setBackRefs which ((st.backRefs which).1 ++ [idx], (st.backRefs which).2)

def pushEnd (st : MatchState) (which idx : Nat) : MatchState :=
  st.setBackRefs which ((st.backRefs which).1, (st.backRefs which).2 ++ [idx])

def popStart (st : MatchState) (which : Nat) : MatchState :=
  st.setBackRefs which ((st.backRefs which).1.dropLast, (st.backRefs which).2)

def popEnd (st : MatchState) (which : Nat) : MatchState :=
  st.setBackRefs which ((st.backRefs which).1, (st.backRefs which).2.dropLast)

end MatchState

def short (n : Int) : Int := (BitVec.ofInt 16 n).toInt

def OpData.asLong : OpData → Int
  | .number n => n
  | _ => -1

def OpData.asCharPtr : OpData → Bytes
  | .text s => cstr s
  | _ => []

def sameCaseless (one other : Bytes) : Bool := (cstr one).map tolower = (cstr other).map tolower

def sameFirst (one other : Bytes) (n : Nat) : Bool := cstr (one.take n) = cstr (other.take n)

namespace RE

def charAt (re : RE) (i : Nat) : Byte := re.fSearch.getD i 0

def subString (re : RE) (i n : Nat) : Bytes := (re.fSearch.drop i).take n

/-- `fProgram[i]`: `Anything::DoGetAt` takes a negative index for 0. -/
def nodeAt (re : RE) (i : Int) : Option Node := re.fProgram[i.toNat]?

/-- `OP_BACKREF`: where the match goes on. -/
def matchBackref (re : RE) (refs : BackRefs) (idx : Nat) : Except MatchExit (Option Nat) :=
  match refs.1.head?, refs.2.head? with
  | some s, some e =>
    if s = e then .ok (some idx)
    else if e < s then .error .negativeLength
    else
      let len := e - s
      if re.fSearch.length < idx + len then .ok none
      else
        let same := if re.fMatchFlags.icase then
            sameCaseless (re.subString idx len) (re.subString s len)
          else sameFirst (re.fSearch.drop idx) (re.fSearch.drop s) len
        .ok (if same then some (idx + len) else none)
  | _, _ => .ok none

def atBol (re : RE) (idx : Nat) : Bool :=
  idx = 0 || (re.fMatchFlags.multiline && re.charAt (idx - 1) = ch '\n')

def atEol (re : RE) (idx : Nat) : Bool :=
  re.fSearch.length ≤ idx || (re.fMatchFlags.multiline && re.charAt idx = ch '\n')

def atBow (re : RE) (opdata : Int) (idx : Nat) : Bool :=
  let cLast := if idx = 0 then ch ' ' else re.charAt (idx - 1)
  let cNext := if re.fSearch.length ≤ idx then ch ' ' else re.charAt idx
  (isalnum cLast = isalnum cNext) ≠ (opdata ≠ 0)

def matchAny (re : RE) (idx : Nat) : Bool :=
  idx < re.fSearch.length && (re.charAt idx ≠ ch '\n' || re.fMatchFlags.dotMatchesNewline)

def matchAtom (re : RE) (atom : Bytes) (idx : Nat) : Bool :=
  atom.length + idx ≤ re.fSearch.length &&
    if re.fMatchFlags.icase then
      sameCaseless atom (re.subString idx atom.length)
    else sameFirst (re.fSearch.drop idx) atom atom.length

def matchAnyOf (re : RE) (opdata : OpData) (idx : Nat) : Bool :=
  idx < re.fSearch.length &&
    let c := if re.fMatchFlags.icase then tolower (re.charAt idx) else re.charAt idx
    match opdata with
    | .set cset => cset.isMember c
    | _ => false

/-- The opcodes without a recursive call: where the match goes on, or that
there is none. -/
def consume (re : RE) (opcode : Opcode) (opdata : OpData) (idx : Nat)
    (st : MatchState) : Except MatchExit (Option Nat) :=
  match opcode with
  | .opBackref => re.matchBackref (st.backRefs opdata.asLong.toNat) idx
  | .opBol => .ok (if re.atBol idx then some idx else none)
  | .opEol => .ok (if re.atEol idx then some idx else none)
  | .opBow => .ok (if re.atBow opdata.asLong idx then some idx else none)
  | .opAny => .ok (if re.matchAny idx then some (idx + 1) else none)
  | .opAtom =>
    .ok (if re.matchAtom opdata.asCharPtr idx then some (idx + opdata.asCharPtr.length) else none)
  | .opAnyOf =>
    .ok (if re.matchAnyOf opdata idx then some (idx + 1) else none)
  | _ => .ok (some idx)

def isBranch (re : RE) (i : Int) : Match Bool :=
  match re.nodeAt i with
  | some node => pure (node.opcode = some .opBranch)
  | none => .exit .outsideProgram

mutual

def matchNodes (re : RE) : Nat → Int → Int → Nat → Match (Option Nat)
  | 0, _, _, _ => .endless
  | fuel + 1, firstNode, lastNode, idx =>
    re.nodes fuel firstNode (if lastNode < 0 then re.fProgram.length else lastNode) idx
termination_by structural fuel => fuel

/-- Node after node of a branch, up to the last one. -/
def nodes (re : RE) : Nat → Int → Int → Nat → Match (Option Nat)
  | 0, _, _, _ => .endless
  | fuel + 1, node, lastNode, idx =>
    if node < lastNode then
      match re.nodeAt node with
      | none => .exit .outsideProgram
      | some here =>
        let next := node + short (here.next.getD lastNode)
        let which := here.opdata.asLong.toNat
        match here.opcode with
        | none => .exit .invalidOpcode
        | some .opReluctantMaybe => re.reluctantMaybe fuel node next idx
        | some .opReluctantPlus => re.reluctantPlus fuel node next idx
        | some .opReluctantStar => re.reluctantStar fuel node next idx
        | some .opOpen => do
            .modify (·.pushStart which idx)
            match ← re.matchNodes fuel next (-1) idx with
            | some idxNew =>
              .modify (·.setStart which idx)
              pure (some idxNew)
            | none =>
              .modify (·.popStart which)
              pure none
        | some .opClose => do
            .modify (·.pushEnd which idx)
            match ← re.matchNodes fuel next (-1) idx with
            | some idxNew =>
              .modify (·.setEnd which idx)
              pure (some idxNew)
            | none =>
              .modify (·.popEnd which)
              pure none
        | some .opBranch => do
            if ← re.isBranch next then re.tryBranches fuel node idx
            else re.nodes fuel (node + 1) lastNode idx
        | some .opEnd => pure (some idx)
        | some opcode => do
            match ← .read (re.consume opcode here.opdata idx) with
            | some idx => re.nodes fuel next lastNode idx
            | none => pure none
    else .exit .corruptProgram
termination_by structural fuel => fuel

/-- First without the operand, then with it. -/
def reluctantMaybe (re : RE) : Nat → Int → Int → Nat → Match (Option Nat)
  | 0, _, _, _ => .endless
  | fuel + 1, node, next, idx => do
      match ← re.matchNodes fuel next (-1) idx with
      | some idxNew => pure (some idxNew)
      | none =>
        match ← re.matchNodes fuel (node + 1) next idx with
        | some idx => re.matchNodes fuel next (-1) idx
        | none => pure none
termination_by structural fuel => fuel

/-- The operand once, then again only as far as what follows needs it. -/
def reluctantPlus (re : RE) : Nat → Int → Int → Nat → Match (Option Nat)
  | 0, _, _, _ => .endless
  | fuel + 1, node, next, idx => do
      match ← re.matchNodes fuel (node + 1) next idx with
      | some idx =>
        match ← re.matchNodes fuel next (-1) idx with
        | some idxNew => pure (some idxNew)
        | none => re.reluctantPlus fuel node next idx
      | none => pure none
termination_by structural fuel => fuel

/-- What follows first; where it fails, the operand once more. -/
def reluctantStar (re : RE) : Nat → Int → Int → Nat → Match (Option Nat)
  | 0, _, _, _ => .endless
  | fuel + 1, node, next, idx => do
      match ← re.matchNodes fuel next (-1) idx with
      | some idxNew => pure (some idxNew)
      | none =>
        match ← re.matchNodes fuel (node + 1) next idx with
        | some idx => re.reluctantStar fuel node next idx
        | none => pure none
termination_by structural fuel => fuel

/-- One alternative after the other, until one matches. -/
def tryBranches (re : RE) : Nat → Int → Nat → Match (Option Nat)
  | 0, _, _ => .endless
  | fuel + 1, node, idx => do
      match ← re.matchNodes fuel (node + 1) (-1) idx with
      | some idxNew => pure (some idxNew)
      | none =>
        match re.nodeAt node with
        | none => .exit .outsideProgram
        | some here =>
          let nextBranch := here.next.getD 0
          if nextBranch = 0 then pure none
          else if ← re.isBranch (node + nextBranch) then
            re.tryBranches fuel (node + nextBranch) idx
          else pure none
termination_by structural fuel => fuel

end

def matchStart (i : Nat) : MatchState where
  fRegisters := writeSlot [] (none, none) 0 (some i, none)
  fBackRefs := []

/-- `MatchAt`: whether there is a match at an index, with the registers. -/
def matchAt (re : RE) (fuel i : Nat) : Option (Except MatchExit Bool × List Register) :=
  (re.matchNodes fuel 0 (-1) i (matchStart i)).map fun
    | (.ok (some idx), st) =>
      let start := (st.register 0).1
      (.ok true, writeSlot st.fRegisters (none, none) 0 (start, some idx))
    | (.ok none, _) => (.ok false, [])
    | (.error exit, st) => (.error exit, st.fRegisters)

def ofCompiled (compiled : RECompiler.Compiled) (fSearch : Bytes) (fMatchFlags : MatchFlags) : RE :=
  ⟨compiled.program, fSearch, fMatchFlags⟩

end RE

end Coast
