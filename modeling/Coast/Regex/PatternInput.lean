import Coast.Base.AnythingParser
import Coast.Regex.Program

/-!
# The input of the regular expression compiler

The pattern, the index of the character that is read next, and the scanning
functions of `RECompiler` that do not touch the program.
-/

namespace Coast

/-- The input state of `RECompiler` and its error message. -/
structure PatternInput where
  fErrorMsg : Bytes
  fPattern : Bytes
  fPatternIdx : Nat
  fNofParentheses : Nat
  fMaskOfClosedParentheses : BitVec 64
  deriving DecidableEq

def islower (c : Byte) : Bool := ch 'a' ≤ c && c ≤ ch 'z'

def tolower (c : Byte) : Byte := if ch 'A' ≤ c && c ≤ ch 'Z' then c + 32 else c

def isodigit (c : Byte) : Bool := ch '0' ≤ c && c ≤ ch '7'

namespace PatternInput

def charAt (s : PatternInput) (i : Nat) : Byte := s.fPattern.getD i 0

def cur (s : PatternInput) : Byte := s.charAt s.fPatternIdx

def more (s : PatternInput) : Bool := s.fPatternIdx < s.fPattern.length

def skip (s : PatternInput) (n : Nat) : PatternInput := { s with fPatternIdx := s.fPatternIdx + n }

def goTo (s : PatternInput) (i : Nat) : PatternInput := { s with fPatternIdx := i }

def syntaxError (s : PatternInput) (text : Bytes) : PatternInput :=
  { s with
    fErrorMsg := s.fErrorMsg ++ digitsText s.fPatternIdx ++ lit ":" ++ text }

/-- The characters from the index on that a loop of the form
`while (p(fPattern.At(fPatternIdx))) ++fPatternIdx` goes over, for a class
`p` without the NUL. -/
def run (s : PatternInput) (p : Byte → Bool) : Bytes := (s.fPattern.drop s.fPatternIdx).takeWhile p

def readNumber (s : PatternInput) (dflt : Int64) : Int64 × PatternInput :=
  if !isdigit s.cur then (dflt, s.syntaxError (lit "Expected digit"))
  else
    let number := s.run isdigit
    ((asLong number dflt).1, s.skip number.length)

/-- `optional` after `bracket`; the first is `bracketUnbounded`. -/
inductive Repetition where
  | unbounded
  | optional (n : Nat)
  deriving DecidableEq

/-- What stands behind the comma of a repetition. -/
def bracketMaximum (s : PatternInput) (min : Int64) : Option (Nat × Repetition) × PatternInput :=
  if s.cur = ch '}' then (some (min.toInt.toNat, .unbounded), s.skip 1)
  else
    let (max, s) := s.readNumber min
    let optional := (max - min).toInt
    if optional < 0 || min.toInt < 0 then
      (none, s.syntaxError (lit "Bad range"))
    else if s.cur ≠ ch '}' then
      (none, (s.skip 1).syntaxError (lit "Missing close brace"))
    else (some (min.toInt.toNat, .optional optional.toNat), s.skip 1)

/-- A repetition in braces: its least number, and how it goes on. -/
def bracket (s : PatternInput) : Option (Nat × Repetition) × PatternInput :=
  if s.cur ≠ ch '{' then (none, s.skip 1)
  else
    let (min, s) := (s.skip 1).readNumber 1
    if s.cur = ch '}' then (some (min.toInt.toNat, .optional 0), s.skip 1)
    else if s.cur ≠ ch ',' then
      (none, (s.skip 1).syntaxError (lit "Expected comma"))
    else (s.skip 1).bracketMaximum min

/-- What an escape stands for. -/
inductive Escape where
  | backref
  | complex
  | charClass
  | error
  | char (c : Int)
  deriving DecidableEq

def Escape.masked : Escape → Bool
  | .char c => BitVec.ofInt 64 c &&& 0xfff0 = 0xfff0
  | _ => true

/-- So many hexadecimal digits at most. -/
def hexDigits (s : PatternInput) : Nat → Int → Escape × PatternInput
  | 0, val => (.char val, s)
  | digits + 1, val =>
    if !s.more then (.char val, s)
    else
      let c := s.cur
      if isdigit c then
        (s.skip 1).hexDigits digits (val * 16 + (c - ch '0').toNat)
      else
        let c := tolower c
        if ch 'a' ≤ c && c ≤ ch 'f' then
          (s.skip 1).hexDigits digits (val * 16 + (c - ch 'a').toNat + 10)
        else
          (.error, s.syntaxError (lit "Expected " ++ digitsText digits ++
            lit " hexadecimal digits after \\x"))

/-- Up to three octal digits. -/
def octalDigits (s : PatternInput) (val : Int) : Escape × PatternInput :=
  if isodigit s.cur then
    let val := val * 8 + (s.cur - ch '0').toNat
    let s := s.skip 1
    if isodigit s.cur then
      (.char (val * 8 + (s.cur - ch '0').toNat), s.skip 1)
    else (.char val, s)
  else (.char val, s)

/-- What stands behind a backslash. -/
def escape (s : PatternInput) : Escape × PatternInput :=
  if s.fPattern.length ≤ s.fPatternIdx + 1 then
    (.error, s.syntaxError (lit "Escape terminates string"))
  else
    let s := s.skip 2
    let c := s.charAt (s.fPatternIdx - 1)
    if c = ch 'b' || c = ch 'B' then (.complex, s)
    else if c = ch 'w' || c = ch 'W' || c = ch 's' || c = ch 'S' ||
        c = ch 'd' || c = ch 'D' then (.charClass, s)
    else if c = ch 'x' then s.hexDigits 2 0
    else if c = ch 't' then (.char 9, s)
    else if c = ch 'n' then (.char 10, s)
    else if c = ch 'r' then (.char 13, s)
    else if c = ch 'f' then (.char 12, s)
    else if isodigit c && (isodigit s.cur || c = ch '0') then
      s.octalDigits (c - ch '0').toNat
    else if isdigit c then (.backref, s)
    else (.char c.toInt, s)

/-- A class by its name between colons. -/
def posixCharacterClass (s : PatternInput) : Option REBitSet × PatternInput :=
  let charClass := s.run islower
  let s := s.skip charClass.length
  if s.cur = ch ':' && s.charAt (s.fPatternIdx + 1) = ch ']' then
    match posixLookup charClass with
    | some set => (some set, s.skip 2)
    | none =>
      (none, (s.syntaxError (lit "Invalid POSIX character class '" ++
        charClass ++ lit "'")).syntaxError
        (lit "Invalid POSIX character class syntax"))
  else
    (none, s.syntaxError (lit "Invalid POSIX character class syntax"))

/-- The variables of the loop of `characterClass`. -/
structure ClassScan where
  last : Byte
  including : Bool
  definingRange : Bool
  idxFirst : Nat
  rangeStart : Byte
  range : REBitSet
  deriving DecidableEq

def charInvalid : Byte := 255

/-- What one turn over a character class comes to. -/
inductive ClassTurn where
  | again (s : PatternInput) (scan : ClassScan)
  | endClass (s : PatternInput) (scan : ClassScan)
  | failed (s : PatternInput)
  deriving DecidableEq

/-- A character of the class, or the end of a range. -/
def classSimple (s : PatternInput) (scan : ClassScan) (simpleChar : Byte) : ClassTurn :=
  if scan.definingRange then
    if simpleChar ≤ scan.rangeStart then
      .failed (s.syntaxError (lit "Bad character class"))
    else
      .again s
        { scan with
          range := scan.range.setRange scan.rangeStart simpleChar
          last := charInvalid
          definingRange := false }
  else
    .again s
      { scan with
        range := if s.charAt (s.fPatternIdx + 1) ≠ ch '-' then
          scan.range.set simpleChar else scan.range
        last := simpleChar }

/-- An escape inside of a class. -/
def classEscape (s : PatternInput) (scan : ClassScan) : ClassTurn :=
  match s.escape with
  | (.char c, s) => s.classSimple scan (BitVec.ofInt 8 c)
  | (.charClass, s) =>
    if scan.definingRange then
      .failed (s.syntaxError (lit "Bad character class"))
    else
      let c := s.charAt (s.fPatternIdx - 1)
      if c = ch 'S' || c = ch 'D' || c = ch 'W' then
        .failed (s.syntaxError (lit "Bad character class"))
      else
        .again s
          { scan with
            range := scan.range.union
              (if c = ch 's' then gcSetIsSpace
                else if c = ch 'w' then gcSetIsAlnum else gcSetIsDigit)
            last := charInvalid }
  | (_, s) => .failed (s.syntaxError (lit "Bad character class"))

/-- A minus begins a range unless it ends one. -/
def classMinus (s : PatternInput) (scan : ClassScan) : ClassTurn :=
  if scan.definingRange || scan.last = charInvalid then
    (s.skip 1).classSimple scan (ch '-')
  else
    let scan := { scan with definingRange := true, rangeStart := scan.last }
    if s.fPatternIdx + 1 < s.fPattern.length then
      let s := s.skip 1
      if s.cur = ch ']' then
        s.classSimple { scan with definingRange := false } (ch '-')
      else .again s scan
    else .again s scan

/-- One turn of the loop of `characterClass`.  The caret that is not the
first character is not stepped over. -/
def classTurn (s : PatternInput) (scan : ClassScan) : ClassTurn :=
  let c := s.cur
  if c = ch ']' then
    if s.fPatternIdx = scan.idxFirst ||
        (s.fPatternIdx = scan.idxFirst + 1 && s.charAt scan.idxFirst = ch '^') then
      (s.skip 1).classSimple scan c
    else .endClass s scan
  else if c = ch '^' then
    if s.fPatternIdx = scan.idxFirst then
      .again (s.skip 1) { scan with including := !scan.including }
    else s.classSimple scan c
  else if c = ch '\\' then s.classEscape scan
  else if c = ch '-' then s.classMinus scan
  else (s.skip 1).classSimple scan c

def endClass (s : PatternInput) (scan : ClassScan) : Option REBitSet × PatternInput :=
  if !s.more then
    (none, s.syntaxError (lit "Unterminated character class"))
  else
    (some (if scan.including then scan.range else scan.range.complement), s.skip 1)

/-- The loop of `characterClass`, which does not always end. -/
def classLoop : Nat → PatternInput → ClassScan → Option (Option REBitSet × PatternInput)
  | 0, _, _ => none
  | fuel + 1, s, scan =>
    if !s.more then some (s.endClass scan)
    else
      match s.classTurn scan with
      | .again s scan => classLoop fuel s scan
      | .endClass s scan => some (s.endClass scan)
      | .failed s => some (none, s)

def classStart (s : PatternInput) : ClassScan where
  last := charInvalid
  including := true
  definingRange := false
  idxFirst := s.fPatternIdx
  rangeStart := 0
  range := REBitSet.new false

/-- The character behind the next one, looking past a whole escape; nothing
when the escape is a character above 127. -/
def lookAhead (s : PatternInput) : Option Byte × PatternInput :=
  if s.cur = ch '\\' then
    let (escaped, after) := s.escape
    let c := if after.more then after.cur else s.charAt (s.fPatternIdx + 1)
    match escaped with
    | .char value =>
      if value < 0 then (none, after) else (some c, after.goTo s.fPatternIdx)
    | _ => (some c, after.goTo s.fPatternIdx)
  else (some (s.charAt (s.fPatternIdx + 1)), s)

def isClosure (c : Byte) : Bool := c = ch '{' || c = ch '?' || c = ch '*' || c = ch '+'

/-- What one turn of the loop of `atom` comes to. -/
inductive AtomTurn where
  | again (s : PatternInput) (strAtom : Bytes)
  | exit (s : PatternInput)
  | failed (s : PatternInput)
  deriving DecidableEq

/-- The character is taken into the atom, or ends it. -/
def atomTake (s : PatternInput) (strAtom : Bytes) : AtomTurn :=
  let c := s.cur
  if c = ch '^' || c = ch '$' || c = ch '.' || c = ch '[' || c = ch '(' ||
      c = ch ')' || c = ch '|' then .exit s
  else if isClosure c then
    if strAtom = [] then
      .failed (s.syntaxError (lit "Missing operand to closure"))
    else .exit s
  else if c = ch '\\' then
    let (escaped, after) := s.escape
    if escaped.masked then .exit (after.goTo s.fPatternIdx)
    else
      match escaped with
      | .char value => .again after (strAtom ++ [BitVec.ofInt 8 value])
      | _ => .exit (after.goTo s.fPatternIdx)
  else .again (s.skip 1) (strAtom ++ [c])

/-- A closure binds to the last character only, so it is looked for first. -/
def atomTurn (s : PatternInput) (strAtom : Bytes) : AtomTurn :=
  if s.fPatternIdx + 1 < s.fPattern.length then
    match s.lookAhead with
    | (none, s) => .failed s
    | (some c, s) =>
      if isClosure c && strAtom ≠ [] then .exit s
      else s.atomTake strAtom
  else s.atomTake strAtom

/-- The loop of `atom`, with a bound on its turns: every turn takes a
character. -/
def atomLoop : Nat → PatternInput → Bytes → Option Bytes × PatternInput
  | 0, s, strAtom => (some strAtom, s)
  | turns + 1, s, strAtom =>
    if !s.more then (some strAtom, s)
    else
      match s.atomTurn strAtom with
      | .again s strAtom => atomLoop turns s strAtom
      | .exit s => (some strAtom, s)
      | .failed s => (none, s)

def atomText (s : PatternInput) : Option Bytes × PatternInput :=
  match s.atomLoop (s.fPattern.length - s.fPatternIdx) [] with
  | (some [], s) => (none, s)
  | result => result

end PatternInput

end Coast
