import Coast.Regex.PatternInput

/-!
# `RECompiler`

The compiler reads the pattern once and appends the nodes of the program
while it reads.  Not every pattern lets it return, so that the functions take
a bound on the depth of the recursion and on the turns of the loops.  Indices
and counts are not bounded.
-/

namespace Coast

/-- The pattern that is read and the program that is made of it. -/
structure RECompiler where
  input : PatternInput
  fInstruction : Program
  deriving DecidableEq

/-- A member function: the bound was too small, or the function returned,
with `-1` or with a value. -/
def Compile (α : Type) : Type := RECompiler → Option (Option α × RECompiler)

namespace Compile

variable {α β : Type}

def bind (first : Compile α) (rest : α → Compile β) : Compile β := fun c =>
  (first c).bind fun
    | (none, c) => some (none, c)
    | (some a, c) => rest a c

instance : Monad Compile where
  pure a := fun c => some (some a, c)
  bind := bind

def failed : Compile α := fun c => some (none, c)

def endless : Compile α := fun _ => none

def look (f : PatternInput → α) : Compile α := fun c =>
  some (some (f c.input), c)

def step (f : PatternInput → PatternInput) : Compile Unit := fun c =>
  some (some (), { c with input := f c.input })

def scan (f : PatternInput → Option α × PatternInput) : Compile α := fun c =>
  some ((f c.input).1, { c with input := (f c.input).2 })

def advance (f : PatternInput → α × PatternInput) : Compile α := fun c =>
  some (some (f c.input).1, { c with input := (f c.input).2 })

def scanLoop (f : PatternInput → Option (Option α × PatternInput)) : Compile α := fun c =>
  (f c.input).map (fun (r, input) => (r, { c with input := input }))

def fail (text : Bytes) : Compile α := fun c =>
  some (none, { c with input := c.input.syntaxError text })

def emit (f : Program → α × Program) : Compile α := fun c =>
  some (some (f c.fInstruction).1, { c with
    fInstruction := (f c.fInstruction).2 })

def generate (f : Program → Option Program) : Compile Unit := fun c =>
  (f c.fInstruction).map (fun program => (some (), { c with fInstruction := program }))

def size : Compile Nat := fun c => some (some c.fInstruction.length, c)

@[simp]
theorem pure_apply (a : α) (c : RECompiler) : (pure a : Compile α) c = some (some a, c) := rfl

@[simp]
theorem failed_apply (c : RECompiler) : (failed : Compile α) c = some (none, c) := rfl

@[simp]
theorem fail_apply (text : Bytes) (c : RECompiler) :
    (fail text : Compile α) c = some (none, { c with input := c.input.syntaxError text }) := rfl

@[simp]
theorem emit_apply (f : Program → α × Program) (c : RECompiler) :
    emit f c = some (some (f c.fInstruction).1,
      { c with fInstruction := (f c.fInstruction).2 }) := rfl

@[simp]
theorem look_bind (f : PatternInput → α) (rest : α → Compile β)
    (c : RECompiler) : (look f >>= rest) c = rest (f c.input) c := rfl

@[simp]
theorem step_bind (f : PatternInput → PatternInput) (rest : Unit → Compile β) (c : RECompiler) :
    (step f >>= rest) c = rest () { c with input := f c.input } := rfl

@[simp]
theorem advance_bind (f : PatternInput → α × PatternInput) (rest : α → Compile β) (c : RECompiler) :
    (advance f >>= rest) c = rest (f c.input).1 { c with input := (f c.input).2 } := rfl

@[simp]
theorem emit_bind (f : Program → α × Program) (rest : α → Compile β) (c : RECompiler) :
    (emit f >>= rest) c = rest (f c.fInstruction).1
      { c with fInstruction := (f c.fInstruction).2 } := rfl

@[simp]
theorem size_bind (rest : Nat → Compile β) (c : RECompiler) :
    (size >>= rest) c = rest c.fInstruction.length c := rfl

theorem scan_bind_some {f : PatternInput → Option α × PatternInput} {c : RECompiler} {a : α}
    {after : PatternInput} (scanned : f c.input = (some a, after)) (rest : α → Compile β) :
    (scan f >>= rest) c = rest a { c with input := after } := by
  change bind (scan f) rest c = _
  rw [bind, scan, scanned]
  rfl

theorem scan_bind_none {f : PatternInput → Option α × PatternInput} {c : RECompiler}
    {after : PatternInput} (scanned : f c.input = (none, after)) (rest : α → Compile β) :
    (scan f >>= rest) c = some (none, { c with input := after }) := by
  change bind (scan f) rest c = _
  rw [bind, scan, scanned]
  rfl

def appendNode (opcode : Opcode) (opdata : OpData) : Compile Nat :=
  emit (fun program => program.appendNode opcode opdata)

def setNextOfEnd (fuel i pointTo : Nat) : Compile Unit :=
  generate (fun program => program.setNextOfEnd fuel i pointTo)

def posixCharacterClass : Compile Nat := do
  let set ← scan PatternInput.posixCharacterClass
  appendNode .opAnyOf (.set set)

/-- A node for a class in brackets. -/
def characterClass (fuel : Nat) : Compile Nat := do
  step (·.skip 1)
  if !(← look PatternInput.more) then fail (lit "Unterminated class")
  else if (← look PatternInput.cur) = ch ':' then
    step (·.skip 1)
    posixCharacterClass
  else
    let ret ← appendNode .opAnyOf (.number 0)
    let set ← scanLoop (fun s => s.classLoop fuel s.classStart)
    emit (fun program => (ret, program.setOpdata ret (.set set)))

def atom : Compile Nat := do
  let ret ← appendNode .opAtom (.number 0)
  let strAtom ← scan PatternInput.atomText
  emit (fun program => (ret, program.setOpdata ret (.text strAtom)))

def escapeClass (c : Byte) : REBitSet :=
  if c = ch 'w' then gcSetIsAlnum
  else if c = ch 'W' then gcSetIsNoAlnum
  else if c = ch 's' then gcSetIsSpace
  else if c = ch 'S' then gcSetIsNoSpace
  else if c = ch 'd' then gcSetIsDigit
  else gcSetIsNoDigit

/-- The bit of a pair of parentheses; the shift is one of 32 bits. -/
def parenthesisBit (n : Nat) : BitVec 64 := (BitVec.twoPow 32 (n % 32)).signExtend 64

/-- A node for an escape, and whether it can match nothing. -/
def escapeTerminal : Compile (Nat × Bool) := do
  let before ← look (·.fPatternIdx)
  let escaped ← advance PatternInput.escape
  let c ← look (fun s => s.charAt (s.fPatternIdx - 1))
  match escaped with
  | .charClass =>
    let ret ← appendNode .opAnyOf (.set (escapeClass c))
    pure (ret, false)
  | .complex =>
    let ret ← appendNode .opBow (.number (if c = ch 'b' then 1 else 0))
    pure (ret, true)
  | .backref =>
    let backreference := (c - ch '0').toNat
    let closed ← look (·.fMaskOfClosedParentheses)
    if closed &&& parenthesisBit backreference = 0 then
      fail (lit "Bad backreference")
    else
      let ret ← appendNode .opBackref (.number backreference)
      pure (ret, true)
  | .error => failed
  | .char _ =>
    step (·.goTo before)
    let ret ← atom
    pure (ret, false)

/-- A node for one terminal, or the nodes of a group. -/
def simpleTerminal (fuel : Nat) : Compile (Nat × Bool) := do
  let c ← look PatternInput.cur
  if c = ch '$' then
    step (·.skip 1)
    let ret ← appendNode .opEol (.number 0)
    pure (ret, true)
  else if c = ch '^' then
    step (·.skip 1)
    let ret ← appendNode .opBol (.number 0)
    pure (ret, true)
  else if c = ch '.' then
    step (·.skip 1)
    let ret ← appendNode .opAny (.number 0)
    pure (ret, false)
  else if c = ch '[' then
    let ret ← characterClass fuel
    pure (ret, false)
  else if c = ch ')' then fail (lit "Unexpected close paren")
  else if c = ch '|' then failed
  else if c = 0 then fail (lit "Unexpected end of input")
  else if c = ch '?' || c = ch '+' || c = ch '{' || c = ch '*' then
    fail (lit "Missing operand to closure")
  else if c = ch '\\' then escapeTerminal
  else
    let ret ← atom
    pure (ret, false)

def repeatTerminal (fuel : Nat) (copied : Program) (repetitions : Nat)
    (last : Nat) : Compile Nat := fun c =>
  (Program.repeatTerminal fuel copied repetitions c.fInstruction last).map
    (fun (last, program) => (some last, { c with fInstruction := program }))

/-- A counted repetition: the terminal is copied as often as it says. -/
def counted (fuel terminalNode terminalLen : Nat) : Compile (Nat × Bool) := do
  let (minimum, optionalRepetition) ← scan PatternInput.bracket
  let terminalProg ← emit (fun program => (program.copyProgram terminalNode terminalLen, program))
  let last ← repeatTerminal fuel terminalProg (minimum - 1) terminalNode
  match optionalRepetition with
  | .unbounded =>
    let last ← repeatTerminal fuel terminalProg (min minimum 1) last
    generate (fun program => program.generateStar fuel last)
    pure (terminalNode, minimum = 0)
  | .optional 0 =>
    if minimum = 0 then
      emit (fun program => ((), program.removeTerminal terminalNode))
      fail (lit "repetition {0} or {0,0}")
    else pure (terminalNode, minimum = 0)
  | .optional (optional + 1) =>
    let last ← repeatTerminal fuel terminalProg (min minimum 1) last
    generate (fun program =>
      Program.generateQuestions fuel terminalProg program last (optional + 1))
    pure (terminalNode, minimum = 0)

def greedy (fuel terminalNode : Nat) (closureType : Byte) : Compile Unit :=
  generate fun program =>
    if closureType = ch '?' then program.generateQuestion fuel terminalNode
    else if closureType = ch '*' then program.generateStar fuel terminalNode
    else program.generatePlus fuel terminalNode

/-- The node of a reluctant closure goes in front of its terminal. -/
def reluctant (fuel terminalNode : Nat) (closureType : Byte) : Compile Unit := do
  let last ← appendNode .opEnd (.number 0)
  setNextOfEnd fuel terminalNode last
  let opcode :=
    if closureType = ch '?' then Opcode.opReluctantMaybe
    else if closureType = ch '*' then Opcode.opReluctantStar
    else Opcode.opReluctantPlus
  emit (fun program =>
    ((), program.insertNode opcode (.number 0) terminalNode))
  setNextOfEnd fuel terminalNode (← size)

/-- The closures behind a terminal. -/
def closureOf (fuel terminalNode : Nat) (terminalIsNullable : Bool) : Compile (Nat × Bool) := do
  let terminalLen := (← size) - terminalNode
  if !(← look PatternInput.more) then
    pure (terminalNode, terminalIsNullable)
  else
    let closureType ← look PatternInput.cur
    if closureType = ch '?' || closureType = ch '*' ||
        closureType = ch '+' then
      step (·.skip 1)
      if terminalIsNullable then
        fail (lit "Closure operand can't be nullable")
      else if (← look PatternInput.cur) = ch '?' then
        step (·.skip 1)
        reluctant fuel terminalNode closureType
        pure (terminalNode, closureType ≠ ch '+')
      else
        greedy fuel terminalNode closureType
        pure (terminalNode, closureType ≠ ch '+')
    else if closureType = ch '{' then
      if terminalIsNullable then
        fail (lit "Closure operand can't be nullable")
      else counted fuel terminalNode terminalLen
    else pure (terminalNode, terminalIsNullable)

/-! ## Branches and expressions -/

/-- The ends of all branches of a group lead to its last node. -/
def hookEnds (last : Nat) : Nat → Nat → Program → Option Program
  | 0, _, _ => none
  | fuel + 1, i, program => do
      let program ← (if (program.node i).opcode = some .opBranch then
          program.setNextOfEnd fuel (i + 1) last
        else some program)
      let next := program.next i
      if next = 0 then some program
      else hookEnds last fuel (i + next).toNat program

/-- A parenthesis is opened; around the pattern itself there is none. -/
def openExpr : Compile (Option Nat × Nat) := fun c =>
  let closeParens := c.input.fNofParentheses
  if closeParens < 1 then
    some (some (none, closeParens), { c with input := { c.input with fNofParentheses := 1 } })
  else if c.input.cur = ch '(' then
    let input := { c.input.skip 1 with fNofParentheses := closeParens + 1 }
    let (ret, program) := c.fInstruction.appendNode .opOpen (.number closeParens)
    some (some (some ret, closeParens), ⟨input, program⟩)
  else some (some (none, closeParens), c)

/-- The node at the end of a group. -/
def closeExpr (paren : Bool) (closeParens : Nat) : Compile Nat := do
  if paren then
    if (← look PatternInput.cur) = ch ')' then
      step (fun s =>
        { s.skip 1 with
          fMaskOfClosedParentheses := s.fMaskOfClosedParentheses ||| parenthesisBit closeParens })
      appendNode .opClose (.number closeParens)
    else fail (lit "Missing close paren")
  else appendNode .opEnd (.number 0)

def branchGoesOn (s : PatternInput) : Bool := s.more && s.cur ≠ ch '|' && s.cur ≠ ch ')'

def anotherBranch (s : PatternInput) : Bool := s.more && s.cur = ch '|'

def linkPiece (fuel : Nat) (chain : Option Nat) (node : Nat) : Compile Unit :=
  match chain with
  | some last => setNextOfEnd fuel last node
  | none => pure ()

mutual

/-- A group: its branches and what closes it. -/
def expr : Nat → Bool → Compile (Nat × Bool)
  | 0, _ => endless
  | fuel + 1, isnullable => do
      let (paren, closeParens) ← openExpr
      let (branchNode, branchnullable) ← branch fuel
      let ret := paren.getD branchNode
      if paren.isSome then setNextOfEnd fuel ret branchNode
      let isnullable ← branches fuel ret (isnullable || branchnullable)
      let last ← closeExpr paren.isSome closeParens
      setNextOfEnd fuel ret last
      generate (hookEnds last fuel ret)
      pure (ret, isnullable)

/-- The branches behind bars. -/
def branches : Nat → Nat → Bool → Compile Bool
  | 0, _, _ => endless
  | fuel + 1, ret, isnullable => do
      if ← look anotherBranch then
        step (·.skip 1)
        let (branchNode, branchnullable) ← branch fuel
        setNextOfEnd fuel ret branchNode
        branches fuel ret (isnullable || branchnullable)
      else pure isnullable

/-- The pieces of a branch behind its first node. -/
def branch : Nat → Compile (Nat × Bool)
  | 0 => endless
  | fuel + 1 => do
      let ret ← appendNode .opBranch (.number 0)
      let (chain, isnullable) ← pieces fuel none true
      if chain.isNone then
        let _ ← appendNode .opNothing (.number 0)
      pure (ret, isnullable)

/-- The pieces of a branch, linked to each other. -/
def pieces : Nat → Option Nat → Bool → Compile (Option Nat × Bool)
  | 0, _, _ => endless
  | fuel + 1, chain, isnullable => do
      if ← look branchGoesOn then
        let (node, closureIsNullable) ← closure fuel
        linkPiece fuel chain node
        pieces fuel (some node) (isnullable && closureIsNullable)
      else pure (chain, isnullable)

def closure : Nat → Compile (Nat × Bool)
  | 0 => endless
  | fuel + 1 => do
      let (terminalNode, terminalIsNullable) ← terminal fuel
      closureOf fuel terminalNode terminalIsNullable

def terminal : Nat → Compile (Nat × Bool)
  | 0 => endless
  | fuel + 1 => do
      if (← look PatternInput.cur) = ch '(' then expr fuel false
      else simpleTerminal fuel

end

end Compile

namespace RECompiler

def start (pat : Bytes) : RECompiler where
  input :=
    { fErrorMsg := []
      fPattern := pat
      fPatternIdx := 0
      fNofParentheses := 0
      fMaskOfClosedParentheses := 0 }
  fInstruction := []

/-- The array that `compile` returns for a pattern without an error. -/
structure Compiled where
  program : Program
  literalPrefix : Option OpData
  deriving DecidableEq

/-- The slot `prefix`: the atom that every match begins with. -/
def prefixOf (program : Program) : Option OpData :=
  let next := (program.next 0).toNat
  if (program.node 0).opcode = some .opBranch && (program.node next).opcode = some .opEnd &&
      (program.node 1).opcode = some .opAtom then
    some (program.node 1).opdata
  else none

/-- The whole pattern has to be read for a program. -/
def compile (fuel : Nat) (pat : Bytes) : Option (Option Compiled × Bytes) :=
  (Compile.expr fuel false (start pat)).map fun
    | (none, c) => (none, c.input.fErrorMsg)
    | (some _, c) =>
      if c.input.fPatternIdx = pat.length then
        (some ⟨c.fInstruction, prefixOf c.fInstruction⟩, c.input.fErrorMsg)
      else
        let s := if c.input.cur = ch ')' then
          c.input.syntaxError (lit "Unmatched close paren") else c.input
        (none, (s.syntaxError (lit "Unexpected input remains")).fErrorMsg)

end RECompiler

end Coast
