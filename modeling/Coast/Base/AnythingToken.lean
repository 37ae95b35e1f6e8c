import Coast.Base.Anything
import Coast.Base.Decimal

/-!
# Tokens

The lexical analysis of a text with Anythings.  The reading functions take
the characters of the token read so far and give back the token, the
character that ended it (NUL at the end of the text) and the stream.
-/

namespace Coast

/-- The kinds of tokens. -/
inductive Tok where
  | eNullSym
  | eDecimalNumber
  | eOctalNumber
  | eHexNumber
  | eFloatNumber
  | eString
  | eBinaryBuf
  | eIndex
  | eRef
  | eInclude
  | eObject
  | eStringError
  | eError
  /-- A brace or the sign of a Null. -/
  | char (c : Byte)
  deriving DecidableEq, Repr

structure AnythingToken where
  token : Tok
  text : Bytes
  deriving DecidableEq, Repr

def isNameDelimiter (c : Byte) : Bool :=
  isspace c || c = ch '/' || c = ch '#' || c = ch '&' || c = ch '*' ||
    c = ch '{' || c = ch '}' || c = ch '[' || c = ch '"' || c = 0 ||
    c = ch '%' || c = ch '!'

namespace IStream

def next (s : IStream) : Byte × IStream :=
  let (got, s) := s.get
  (got.getD 0, s)

def putbackUnlessNul (s : IStream) (c : Byte) : IStream := if c = 0 then s else s.putback c

end IStream

namespace AnythingToken

def doReadName (text : Bytes) (firstchar : Byte) (s : IStream) : AnythingToken × Byte × IStream :=
  let (word, stop, s) := s.collect fun c => !isNameDelimiter c
  (⟨.eString, text ++ firstchar :: word⟩, stop.getD 0, s)

def doReadDigits (text : Bytes) (s : IStream) : Bytes × Byte × IStream :=
  let (word, stop, s) := s.collect isdigit
  (text ++ word, stop.getD 0, s)

/-- The exponent of a number: the text, the following character, whether
there was an `E` and whether digits followed it. -/
def doReadExponent (text : Bytes) (firstchar : Byte) (s : IStream) :
    Bytes × Byte × Bool × Bool × IStream :=
  if toupper firstchar = ch 'E' then
    let text := text ++ [firstchar]
    let (firstchar, s) := s.next
    let (text, firstchar, s) :=
      if firstchar = ch '+' || firstchar = ch '-' then
        let (following, s) := s.next
        (text ++ [firstchar], following, s)
      else (text, firstchar, s)
    if isdigit firstchar then
      let (text, firstchar, s) := doReadDigits (text ++ [firstchar]) s
      (text, firstchar, true, true, s)
    else (text, firstchar, true, false, s)
  else (text, firstchar, false, false, s)

/-- Digits with a sign, and what makes them a number with a fraction. -/
def doReadNumber (text : Bytes) (firstchar : Byte) (s : IStream) : AnythingToken × Byte × IStream :=
  if s.good then
    let (text, firstchar, s) :=
      if firstchar = ch '+' || firstchar = ch '-' then
        let (following, s) := s.next
        (text ++ [firstchar], following, s)
      else (text, firstchar, s)
    let intpart := isdigit firstchar
    let (text, firstchar, s) :=
      if intpart then doReadDigits (text ++ [firstchar]) s
      else (text, firstchar, s)
    let fraction := firstchar = ch '.'
    let (text, firstchar, s) :=
      if fraction then doReadDigits (text ++ [firstchar]) s
      else (text, firstchar, s)
    let (text, firstchar, echar, exponent, s) := doReadExponent text firstchar s
    let token :=
      if (!intpart && !fraction && !exponent) || (echar && !exponent) then
        .eError
      else if fraction || exponent then .eFloatNumber
      else .eDecimalNumber
    (⟨token, text⟩, firstchar, s)
  else
    let token := if isdigit firstchar then .eDecimalNumber else .eError
    (⟨token, text ++ [firstchar]⟩, 0, s)

def isDecimalMark (c : Byte) : Bool := c = ch '8' || c = ch '9' || c = ch '.' || toupper c = ch 'E'

/-- What follows a zero: hexadecimal digits behind an x, or octal ones. -/
def doReadOctalOrHex (s : IStream) : AnythingToken × Byte × IStream :=
  match s.get with
  | (none, s) => (⟨.eOctalNumber, []⟩, 0, s)
  | (some c, s) =>
    if toupper c = ch 'X' then
      let (digits, stop, s) := s.collect isxdigit
      match stop with
      | none => (⟨.eHexNumber, digits⟩, 0, s)
      | some stop =>
        if !isNameDelimiter stop then
          (⟨.eHexNumber, ch '0' :: c :: digits⟩, stop, s)
        else (⟨.eHexNumber, digits⟩, stop, s)
    else if isOctalDigit c then
      let (digits, stop, s) := s.collect isOctalDigit
      let text := ch '0' :: c :: digits
      match stop with
      | none => (⟨.eOctalNumber, text⟩, 0, s)
      | some stop =>
        if isDecimalMark stop then doReadNumber text stop s
        else (⟨.eOctalNumber, text⟩, stop, s)
    else if isDecimalMark c then doReadNumber [] (ch '0') (s.putback c)
    else (⟨.eOctalNumber, [ch '0']⟩, c, s)

def doReadString (firstchar : Byte) (s : IStream) : AnythingToken × IStream :=
  let (text, newlines, s) := intReadFrom firstchar (s.putback firstchar)
  (⟨if newlines < 0 then .eStringError else .eString, text⟩, s)

def skipToBracket (c : Byte) (s : IStream) : IStream :=
  if c = ch ']' then s else (s.collect fun c => c ≠ ch ']').2.2

/-- A length, a semicolon, and as many bytes in front of the bracket. -/
def doReadBinBuf (s : IStream) : AnythingToken × IStream :=
  let (length, s) := extractLong s
  let formatError := !s.good
  let s := if formatError then s.clear else s
  let (c, s) := s.next
  if c ≠ ch ';' then (⟨.eError, []⟩, skipToBracket c s)
  else
    let (text, s) := readCount s length
    let (c, s) := s.next
    if formatError || (text.length : Int) ≠ length || c ≠ ch ']' then
      (⟨.eError, text⟩, skipToBracket c s)
    else (⟨.eBinaryBuf, text⟩, s)

def doReadObject (s : IStream) : AnythingToken × IStream :=
  let (_, stop, s) := s.collect isspace
  let (number, c, s) := doReadNumber [] (stop.getD 0) s
  if number.token = .eDecimalNumber then
    (⟨.eObject, number.text⟩, s.putback c)
  else if isspace c then (⟨.eError, number.text ++ [c]⟩, s)
  else
    let (word, stop, s) := s.collect fun c => !isspace c
    (⟨.eError, number.text ++ c :: (word ++ stop.toList)⟩, s)

/-- The text of a reference, in quotes or up to a blank. -/
def doReadReference (theToken : Tok) (s : IStream) : AnythingToken × IStream :=
  match s.get with
  | (none, s) => (⟨.eError, []⟩, s)
  | (some c, s) =>
    if c = ch '"' then
      let (name, s) := doReadString c s
      (⟨if name.text = [] then .eError else theToken, name.text⟩, s)
    else if !isNameDelimiter c then
      let (name, c, s) := doReadName [] c s
      (⟨theToken, name.text⟩, s.putbackUnlessNul c)
    else (⟨.eError, []⟩, s.putbackUnlessNul c)

def finishNumber (named : Bool) (number : AnythingToken) (c : Byte)
    (s : IStream) : AnythingToken × IStream :=
  if named then
    let (name, c, s) := doReadName number.text c s
    (name, s.putbackUnlessNul c)
  else (number, s.putbackUnlessNul c)

def doReadZero (s : IStream) : AnythingToken × IStream :=
  let (number, c, s) := doReadOctalOrHex s
  finishNumber (!isNameDelimiter c) number c s

def doReadSigned (firstchar : Byte) (s : IStream) : AnythingToken × IStream :=
  let (number, c, s) := doReadNumber [] firstchar s
  finishNumber (!isNameDelimiter c || number.token = .eError) number c s

def isEol (c : Byte) : Bool := c = ch '\n' || c = ch '\r'

/-- The rest of the line is passed by. -/
def skipToEOL (s : IStream) : IStream :=
  match s.collect fun c => !isEol c with
  | (_, none, s) => s
  | (_, some c, s) =>
    match s.get with
    | (none, s) => s
    | (some crnl, s) =>
      if (c = ch '\n' && crnl ≠ ch '\r') ||
          (c = ch '\r' && crnl ≠ ch '\n') then
        s.putback crnl
      else s

/-- The loop of the constructor of `AnythingToken`: spaces and comments are
passed over, anything else is a token.  Every turn takes a character from
the stream. -/
def readFrom : Nat → IStream → AnythingToken × IStream
  | 0, s => (⟨.eNullSym, []⟩, s)
  | fuel + 1, s =>
    match s.get with
    | (none, s) => (⟨.eNullSym, []⟩, s)
    | (some c, s) =>
      if c = ch '{' || c = ch '}' || c = ch '*' then
        (⟨.char c, [c]⟩, s)
      else if c = ch '&' then doReadObject s
      else if c = ch '/' then doReadReference .eIndex s
      else if c = ch '%' then doReadReference .eRef s
      else if c = ch '!' then doReadReference .eInclude s
      else if c = ch '"' then doReadString c s
      else if c = ch '[' then doReadBinBuf s
      else if c = ch '0' then doReadZero s
      else if c = ch '+' || c = ch '-' || c = ch '.' || isdigit c then
        doReadSigned c s
      else if c = ch '#' then readFrom fuel (skipToEOL s)
      else if isalnum c || c = ch '_' then
        let (name, c, s) := doReadName [] c s
        (name, s.putbackUnlessNul c)
      else if isspace c then readFrom fuel s
      else (⟨.eError, [c]⟩, s)

def read (s : IStream) : AnythingToken × IStream := readFrom (s.rest.length + 1) s

end AnythingToken

/-!
## The printers

`SimpleAnyPrinter` writes an Anything without blanks, `PrettyAnyPrinter` one
slot to a line.  Both follow `AnyVisitor::VisitArray` and differ in what they
write around an array and around its elements.
-/

/-- The hooks of `AnyVisitor::VisitArray` that a printer fills, for an array
inside so many others. -/
structure AnyPrinter where
  arrayBefore : Nat → Bytes
  beforeElement : Nat → Bytes
  afterElement : Nat → Bytes
  arrayAfter : Nat → Bytes

def simpleAnyPrinter : AnyPrinter where
  arrayBefore _ := [ch '{']
  beforeElement _ := []
  afterElement _ := []
  arrayAfter _ := [ch '}']

def tab (level : Nat) : Bytes := List.replicate (2 * level) (ch ' ')

def prettyAnyPrinter : AnyPrinter where
  arrayBefore _ := [ch '{', ch '\n']
  beforeElement level := tab (level + 1)
  afterElement _ := [ch '\n']
  arrayAfter level := tab level ++ [ch '}']

def needquote (s : Bytes) : Bool := s.head?.any isdigit || s.any isNameDelimiter

def printKey (s : Bytes) : Bytes :=
  ch '/' :: ((if needquote s then intPrintOn (ch '"') s else s) ++ [ch ' '])

def printSlotName (key : Bytes) : Bytes := if key = [] then [] else printKey key

def printVoidBuf (value : Bytes) : Bytes :=
  ch '[' :: (digitsText value.length ++ ch ';' :: (value ++ [ch ']']))

mutual

/-- The printer, which does not see what is shared. -/
def printAny (p : AnyPrinter) (level : Nat) : Anything → Bytes
  | .null => [ch '*']
  | .long value => decimalText value.toInt
  | .charPtr value => intPrintOn (ch '"') value
  | .double text => text
  | .voidBuf value => printVoidBuf value
  | .object address => ch '&' :: digitsText address.toNat
  | .array slots =>
    p.arrayBefore level ++ printSlots p level slots ++ p.arrayAfter level

def printSlots (p : AnyPrinter) (level : Nat) : List (Bytes × Anything) → Bytes
  | [] => []
  | (key, value) :: slots =>
    p.beforeElement level ++ printSlotName key ++
      printAny p (level + 1) value ++ p.afterElement level ++
      printSlots p level slots

end

def printOn (any : Anything) (pretty : Bool) : Bytes :=
  printAny (if pretty then prettyAnyPrinter else simpleAnyPrinter) 0 any

end Coast
