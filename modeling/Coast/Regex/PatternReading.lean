import Coast.Regex.RECompiler
import Coast.Regex.Regex

/-!
# The syntax of a pattern

A pattern is read into its tree without making a program.  The reading stops
at the first syntax error, and at the two things that keep the compiler from
returning: a caret inside a bracket expression, which is never stepped over,
and a reluctant closure in front of a piece of several nodes, which is linked
to a circle that a later walk does not leave.
-/

namespace Coast

/-- How reading a pattern ends without a tree. -/
inductive Stop where
  | syntaxError
  | endlessClass
  | endlessChain
  deriving DecidableEq

def Reading (α : Type) : Type := PatternInput → Option (Except Stop (α × PatternInput))

namespace Reading

variable {α β : Type}

def bind (first : Reading α) (rest : α → Reading β) : Reading β := fun s =>
  match first s with
  | none => none
  | some (.error stop) => some (.error stop)
  | some (.ok (a, s)) => rest a s

instance : Monad Reading where
  pure a := fun s => some (.ok (a, s))
  bind := bind

def stop (why : Stop) : Reading α := fun _ => some (.error why)

def look (f : PatternInput → α) : Reading α := fun s => some (.ok (f s, s))

def step (f : PatternInput → PatternInput) : Reading Unit := fun s =>
  some (.ok ((), f s))

def advance (f : PatternInput → α × PatternInput) : Reading α := fun s =>
  some (.ok (f s))

def scan (f : PatternInput → Option α × PatternInput) : Reading α := fun s =>
  match f s with
  | (some a, s) => some (.ok (a, s))
  | (none, _) => some (.error .syntaxError)

@[simp]
theorem pure_apply (a : α) (s : PatternInput) : (pure a : Reading α) s = some (.ok (a, s)) := rfl

@[simp]
theorem stop_apply (why : Stop) (s : PatternInput) :
    (stop why : Reading α) s = some (.error why) := rfl

@[simp]
theorem look_bind (f : PatternInput → α) (rest : α → Reading β)
    (s : PatternInput) : (look f >>= rest) s = rest (f s) s := rfl

@[simp]
theorem step_bind (f : PatternInput → PatternInput) (rest : Unit → Reading β)
    (s : PatternInput) : (step f >>= rest) s = rest () (f s) := rfl

@[simp]
theorem advance_bind (f : PatternInput → α × PatternInput)
    (rest : α → Reading β) (s : PatternInput) :
    (advance f >>= rest) s = rest (f s).1 (f s).2 := rfl

variable {f : PatternInput → Option α × PatternInput} {s : PatternInput}

theorem scan_bind_some {after : PatternInput} {a : α} (scanned : f s = (some a, after))
    (rest : α → Reading β) : (scan f >>= rest) s = rest a after := by
  change bind (scan f) rest s = _
  rw [bind, scan, scanned]

theorem scan_bind_none {after : PatternInput} (scanned : f s = (none, after))
    (rest : α → Reading β) :
    (scan f >>= rest) s = some (.error .syntaxError) := by
  change bind (scan f) rest s = _
  rw [bind, scan, scanned]

theorem bind_ok {first : Reading α} {rest : α → Reading β} {u : PatternInput} {b : β}
    (reads : (first >>= rest) s = some (.ok (b, u))) :
    ∃ a t, first s = some (.ok (a, t)) ∧ rest a t = some (.ok (b, u)) := by
  change bind first rest s = _ at reads
  rw [bind] at reads
  split at reads
  · cases reads
  · cases reads
  · exact ⟨_, _, ‹_›, reads⟩

theorem scan_ok {t : PatternInput} {a : α} (reads : scan f s = some (.ok (a, t))) :
    f s = (some a, t) := by
  rw [scan] at reads
  split at reads
  · cases reads
    assumption
  · cases reads

end Reading

def PatternInput.ended (s : PatternInput) : Bool := s.fPatternIdx = s.fPattern.length

namespace Regex

open Reading

def caretStays (s : PatternInput) (scan : PatternInput.ClassScan) : Bool :=
  s.cur = ch '^' && s.fPatternIdx ≠ scan.idxFirst &&
    !(scan.definingRange && ch '^' ≤ scan.rangeStart)

/-- The items of a character class, up to the bracket. -/
def readItems : Nat → PatternInput.ClassScan → Reading REBitSet
  | 0, _ => fun _ => none
  | fuel + 1, items => fun s =>
    if !s.more then some (.error .syntaxError)
    else if caretStays s items then some (.error .endlessClass)
    else
      match s.classTurn items with
      | .again s items => readItems fuel items s
      | .endClass s items => scan (·.endClass items) s
      | .failed _ => some (.error .syntaxError)

/-- A character class behind its opening bracket. -/
def readClass (fuel : Nat) : Reading Regex := do
  step (·.skip 1)
  if !(← look PatternInput.more) then stop .syntaxError
  else if (← look PatternInput.cur) = ch ':' then
    step (·.skip 1)
    let set ← scan PatternInput.posixCharacterClass
    pure (.terminal (.anyOf set))
  else
    let items ← look PatternInput.classStart
    let set ← readItems fuel items
    pure (.terminal (.anyOf set))

def readAtom : Reading Regex := do
  let text ← scan PatternInput.atomText
  pure (.terminal (.atom text))

/-- A terminal for an escape. -/
def readEscape : Reading Regex := do
  let before ← look (·.fPatternIdx)
  let escaped ← advance PatternInput.escape
  let c ← look (fun s => s.charAt (s.fPatternIdx - 1))
  match escaped with
  | .charClass => pure (.terminal (.anyOf (Compile.escapeClass c)))
  | .complex =>
    pure (.terminal (.bow (if c = ch 'b' then 1 else 0)))
  | .backref =>
    let backreference := (c - ch '0').toNat
    let closed ← look (·.fMaskOfClosedParentheses)
    if closed &&& Compile.parenthesisBit backreference = 0 then
      stop .syntaxError
    else pure (.terminal (.backref backreference))
  | .error => stop .syntaxError
  | .char _ =>
    step (·.goTo before)
    readAtom

/-- A terminal, a class or a group. -/
def readSimple (fuel : Nat) : Reading Regex := do
  let c ← look PatternInput.cur
  if c = ch '$' then
    step (·.skip 1)
    pure (.terminal .eol)
  else if c = ch '^' then
    step (·.skip 1)
    pure (.terminal .bol)
  else if c = ch '.' then
    step (·.skip 1)
    pure (.terminal .any)
  else if c = ch '[' then readClass fuel
  else if c = ch ')' || c = ch '|' || c = 0 || c = ch '?' || c = ch '+' ||
      c = ch '{' || c = ch '*' then stop .syntaxError
  else if c = ch '\\' then readEscape
  else readAtom

def repeated (operand : Regex) (minimum : Nat) : PatternInput.Repetition → Regex
  | .unbounded => copies operand minimum (.closure .star true operand)
  | .optional 0 => copies operand (minimum - 1) operand
  | .optional (optional + 1) =>
    copies operand minimum
      (copies (.closure .question true operand) optional (.closure .question true operand))

def operatorOf (c : Byte) : ClosureOperator :=
  if c = ch '?' then .question else if c = ch '*' then .star else .plus

/-- The closure behind an operand, if there is one. -/
def readClosure (operand : Regex) : Reading Regex := do
  if !(← look PatternInput.more) then pure operand
  else
    let c ← look PatternInput.cur
    if c = ch '?' || c = ch '*' || c = ch '+' then
      step (·.skip 1)
      if operand.nullable then stop .syntaxError
      else if (← look PatternInput.cur) = ch '?' then
        step (·.skip 1)
        pure (.closure (operatorOf c) false operand)
      else pure (.closure (operatorOf c) true operand)
    else if c = ch '{' then
      if operand.nullable then stop .syntaxError
      else
        let (minimum, optional) ← scan PatternInput.bracket
        if minimum = 0 && optional = .optional 0 then stop .syntaxError
        else pure (operand.repeated minimum optional)
    else pure operand

/-! ## Branches

The reading of what is in parentheses is a parameter. -/

section

variable (inner : Reading Regex) (fuel : Nat)

def readPiece : Reading Regex := do
  let c ← look PatternInput.cur
  let operand ← (if c = ch '(' then inner else readSimple fuel)
  readClosure operand

/-- The pieces behind one.  There is no tree when a reluctant closure is in
front of a piece of several nodes. -/
def readPieces : Nat → Regex → Reading (Option Regex)
  | 0, _ => fun _ => none
  | turns + 1, last => do
      if ← look Compile.branchGoesOn then
        let piece ← readPiece inner fuel
        if last.endsReluctant && piece.size ≠ 1 then
          if ← look Compile.branchGoesOn then
            let _ ← readPiece inner fuel
            stop .endlessChain
          else pure none
        else
          let rest ← readPieces turns piece
          pure (rest.map (last.cat ·))
      else pure (some last)

def readBranch : Reading (Option Regex) := do
  if ← look Compile.branchGoesOn then
    let piece ← readPiece inner fuel
    readPieces inner fuel fuel piece
  else pure (some .nothing)

/-- The branches behind bars, where the first may be missing. -/
def readBranches : Nat → Option Regex → Reading (Option Branches)
  | 0, _ => fun _ => none
  | turns + 1, first => do
      if ← look Compile.anotherBranch then
        step (·.skip 1)
        let second ← readBranch inner fuel
        let rest ← readBranches turns second
        pure (first.bind fun first => rest.map (.more first ·))
      else pure (first.map .one)

end

/-- A group with the number of its parenthesis. -/
def readGroup : Nat → Reading Regex
  | 0 => fun _ => none
  | fuel + 1 => do
      let number ← look (·.fNofParentheses)
      step (fun s => { s.skip 1 with fNofParentheses := number + 1 })
      let first ← readBranch (readGroup fuel) fuel
      let body ← readBranches (readGroup fuel) fuel fuel first
      if (← look PatternInput.cur) = ch ')' then
        step (fun s =>
          { s.skip 1 with
            fMaskOfClosedParentheses :=
              s.fMaskOfClosedParentheses ||| Compile.parenthesisBit number })
        match body with
        | some body => pure (.group number body)
        | none => stop .endlessChain
      else stop .syntaxError

def readExpr (fuel : Nat) : Reading Branches := do
  step (fun s => { s with fNofParentheses := 1 })
  let first ← readBranch (readGroup fuel) fuel
  let body ← readBranches (readGroup fuel) fuel fuel first
  match body with
  | some body => pure body
  | none => stop .endlessChain

def readPattern (fuel : Nat) : Reading Branches := do
  let body ← readExpr fuel
  if ← look PatternInput.ended then pure body else stop .syntaxError

def ReadsAs (pat : Bytes) (outcome : Except Stop Branches) : Prop :=
  ∃ fuel result,
    readPattern fuel (RECompiler.start pat).input = some result ∧ result.map (·.1) = outcome

end Regex

end Coast
