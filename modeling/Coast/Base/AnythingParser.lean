import Coast.Base.AnythingToken

/-!
# The parser

`Anything::Import` reads a text into the heap.  A reference to another slot
is read as a dummy slot that holds the path; the dummies are replaced when
the text has been read completely.
-/

namespace Coast

/-! ## Paths of references -/

/-- One step of a path: an Anything of type String or Long. -/
inductive PathStep where
  | key (name : Bytes)
  | index (i : Int64)
  deriving DecidableEq, Repr

def fgPathDelim : Byte := ch '.'
def fgIndexDelim : Byte := ch ':'
def fgEscapeChar : Byte := ch '\\'

def isPathDelim (c : Byte) : Bool := c = fgPathDelim || c = fgIndexDelim

def leftCharNotEscape (l r : Byte) : Bool := l ≠ fgEscapeChar && isPathDelim r

def leftCharEscape (l r : Byte) : Bool := l = fgEscapeChar && isPathDelim r

def unescapeString (text : Bytes) : Bytes :=
  text.foldl
    (fun result c =>
      match result.getLast? with
      | some l => (if leftCharEscape l c then result.dropLast else result) ++ [c]
      | none => [c])
    []

/-- A query is cut where a character that is not escaped begins a slot. -/
def queryTokens : Bytes → List Bytes
  | [] => []
  | [c] => [[c]]
  | c :: d :: text =>
    if leftCharNotEscape c d then [c] :: queryTokens (d :: text)
    else
      match queryTokens (d :: text) with
      | [] => [[c]]
      | word :: words => (c :: word) :: words

def asLong (text : Bytes) (dflt : Int64) : Int64 × Bool :=
  let (_, digits) := splitSign ((cstr text).dropWhile isspace)
  if (digits.takeWhile isdigit).isEmpty then (dflt, false) else strtol text

def queryStep (token : Bytes) : PathStep × Bool :=
  let strTok := cstr token
  let trimmed := if strTok.head?.any isPathDelim then strTok.tail else strTok
  if strTok.head? = some fgIndexDelim then
    let (i, erange) := asLong trimmed (-1)
    (.index i, erange)
  else (.key (unescapeString trimmed), false)

def escapedQueryStringToAny (query : Bytes) : List PathStep × Bool :=
  let steps := (queryTokens query).map queryStep
  (steps.map Prod.fst, steps.any Prod.snd)

namespace Heap

def allocSteps (heap : Heap) (steps : List PathStep) : Handle × Heap :=
  let impls := steps.map fun
    | .key name => AnyImpl.charPtr name
    | .index i => AnyImpl.long i
  let slots := (List.range steps.length).map fun i =>
    (([] : Bytes), some (heap.length + i))
  alloc (heap ++ impls) (.array slots)

def elements (heap : Heap) (handle : Handle) : List Handle :=
  match heap.impl handle with
  | none => []
  | some (.array slots) => slots.map Prod.snd
  | some _ => [handle]

def stepOf (heap : Heap) (handle : Handle) : Option PathStep :=
  match heap.impl handle with
  | some (.charPtr name) => some (.key name)
  | some (.long i) => some (.index i)
  | _ => none

def resolveStep (heap : Heap) (result : Handle) (step : Option PathStep) : Handle :=
  match heap.impl result, step with
  | some (.array slots), some (.key name) => (slots.lookup name).join
  | some (.array slots), some (.index i) =>
    if 0 ≤ i.toInt then (slots[i.toInt.toNat]?.map Prod.snd).join
    else none
  | _, _ => none

def resolve (heap : Heap) (result : Handle) (steps : List (Option PathStep)) : Handle :=
  steps.foldl heap.resolveStep result

/-- `any[i]` and `any[key]` of an array: the slot is made when it is not
there. -/
def slotAt (slots : Slots Handle) : PathStep → Nat × Slots Handle
  | .key name =>
    match slots.findIndex name with
    | some i => (i, slots)
    | none => (slots.length, slots ++ [(cstr name, none)])
  | .index i =>
    let place := i.toInt.toNat
    (place, slots ++ List.replicate (place + 1 - slots.length) ([], none))

end Heap

/-- A dummy slot: the array it is in and its place there. -/
structure PatchRef where
  level : List PathStep
  slot : PathStep
  deriving DecidableEq, Repr

/-- The slot gets what the reference leads to, once everything is read. -/
def patchRef (any : Handle) (heap : Heap) (patch : PatchRef) : Heap :=
  let preslot := heap.resolve any (patch.level.map some)
  match preslot, heap.impl preslot with
  | some place, some (.array slots) =>
    let (i, slots) := Heap.slotAt slots patch.slot
    let heap : Heap := heap.set place (.array slots)
    let anyReferenced := (slots[i]?.map Prod.snd).join
    let steps := (heap.elements anyReferenced).map heap.stepOf
    let ref := heap.resolve any steps
    if ref = none then heap
    else heap.set place (.array (slots.setIndex i ref))
  | _, _ => heap

def patch (any : Handle) (heap : Heap) (xrefs : List PatchRef) : Heap :=
  xrefs.foldl (patchRef any) heap

/-- What the parser asks the system for. -/
structure ParserEnv where
  /-- The contents of a file, if `OpenStream` opens it. -/
  openStream : Bytes → Option Bytes
  /-- What `AnyDoubleImpl` keeps of the number `strtod` reads, nothing for a
  number out of range. -/
  strToD : Bytes → Option Bytes

/-- What is left to read, what has been made, and the references to be patched. -/
structure ParseState where
  stream : IStream
  /-- `errno == ERANGE`. -/
  erange : Bool
  heap : Heap
  xrefs : List PatchRef

namespace ParseState

def alloc (st : ParseState) (impl : AnyImpl) : Handle × ParseState :=
  ((st.heap.alloc impl).1, { st with heap := (st.heap.alloc impl).2 })

def checkErrno (st : ParseState) (erange : Bool) : Bool × ParseState :=
  (!(st.erange || erange), { st with erange := false })

def token (st : ParseState) : AnythingToken × ParseState :=
  let (tok, stream) := AnythingToken.read st.stream
  (tok, { st with stream := stream })

end ParseState

/-- A number that was read, no implementation when it is out of range. -/
def makeNumber (st : ParseState) (erange : Bool) (impl : AnyImpl) : Handle × ParseState :=
  let (ok, st) := st.checkErrno erange
  if ok then st.alloc impl else (none, st)

/-- A value of one token. -/
def makeSimpleAny (env : ParserEnv) (tok : AnythingToken) (st : ParseState) :
    Bool × Handle × ParseState :=
  match tok.token with
  | .char c => (c = ch '*', none, st)
  | .eStringError =>
    if tok.text = [] then (false, none, st)
    else (true, st.alloc (.charPtr tok.text))
  | .eString => (true, st.alloc (.charPtr tok.text))
  | .eDecimalNumber =>
    let (number, erange) := strtol tok.text
    (true, makeNumber st erange (.long number))
  | .eOctalNumber =>
    let (number, erange) := strtoul 8 tok.text
    (true, makeNumber st erange (.long ⟨⟨number⟩⟩))
  | .eHexNumber =>
    let (number, erange) := strtoul 16 tok.text
    (true, makeNumber st erange (.long ⟨⟨number⟩⟩))
  | .eFloatNumber =>
    let number := env.strToD tok.text
    (true, makeNumber st number.isNone (.double (number.getD [])))
  | .eBinaryBuf => (true, st.alloc (.voidBuf tok.text))
  | .eObject =>
    let (number, erange) := strtoul 10 tok.text
    (true, makeNumber st erange (.object number))
  | _ => (false, none, st)

/-- A reference is a path for now, and is patched later. -/
def makeRef (text : Bytes) (level : List PathStep) (slot : PathStep)
    (st : ParseState) : Handle × ParseState :=
  let (steps, erange) := escapedQueryStringToAny text
  let (element, heap) := st.heap.allocSteps steps
  (element,
    { st with
      erange := st.erange || erange
      heap := heap
      xrefs := st.xrefs ++ [⟨level, slot⟩] })

/-- What the turns of `DoParseSequence` do next. -/
inductive Outcome where
  /-- The sequence has ended. -/
  | finished (ok : Bool) (slots : Slots Handle) (st : ParseState)
  /-- A slot has been read. -/
  | slot (lastok : Bool) (slots : Slots Handle) (st : ParseState)
  /-- Go on with a token that has been read already. -/
  | restart (tok : AnythingToken) (slots : Slots Handle) (st : ParseState)

section Sequence

variable (env : ParserEnv)
/- `ImportIncludeAny` for the url of a token. -/
variable (includeAny : Bytes → ParseState → Handle × ParseState)
/- `DoParseSequence` for an array inside. -/
variable (sequence : List PathStep → ParseState → Bool × Slots Handle × ParseState)

def parseArray (level : List PathStep) (st : ParseState) : Bool × Handle × ParseState :=
  let (ok, slots, st) := sequence level st
  (ok, st.alloc (.array slots))

def parseValue (level : List PathStep) (tok : AnythingToken)
    (st : ParseState) : Bool × Handle × ParseState :=
  if tok.token = .char (ch '{') then parseArray sequence level st
  else makeSimpleAny env tok st

/-- An element without a key.  Its slot is there before an array in it is
read. -/
def parseUnnamed (level : List PathStep) (tok : AnythingToken)
    (slots : Slots Handle) (st : ParseState) : Outcome :=
  let lIdx := Int64.ofNat slots.length
  let (lastok, element, st) := parseValue env sequence (level ++ [.index lIdx]) tok st
  .slot lastok (if element ≠ none || lastok then slots.append element else slots) st

/-- What stands behind a name. -/
def parseNamed (level : List PathStep) (key : Bytes)
    (slots : Slots Handle) (st : ParseState) : Outcome :=
  let (tok, st) := st.token
  match tok.token with
  | .eRef =>
    let (element, st) := makeRef tok.text level (.key key) st
    .slot true (slots.setKey key element) st
  | .eInclude =>
    let (element, st) := includeAny tok.text st
    .slot true (slots.setKey key element) st
  | .eIndex => .restart tok (slots.setKey key none) st
  | _ =>
    let (lastok, element, st) := parseValue env sequence (level ++ [.key key]) tok st
    .slot lastok (slots.setKey key element) st

/-- A slot without a name, by its first token. -/
def parseElement (level : List PathStep) (tok : AnythingToken)
    (slots : Slots Handle) (st : ParseState) : Outcome :=
  match tok.token with
  | .eError => .slot false slots st
  | .eNullSym => .finished false slots st
  | .eInclude =>
    let (element, st) := includeAny tok.text st
    .slot true (slots.append element) st
  | .eRef =>
    let lIdx := Int64.ofNat slots.length
    let (element, st) := makeRef tok.text level (.index lIdx) st
    .slot true (slots.append element) st
  | .eIndex => parseNamed env includeAny sequence level tok.text slots st
  | .char c =>
    if c = ch '}' then .finished true slots st
    else parseUnnamed env sequence level tok slots st
  | _ => parseUnnamed env sequence level tok slots st

end Sequence

/-- `AnythingParser::DoParseSequence` behind the opening brace.  Every turn
takes a character from the stream. -/
def doParseSequence (env : ParserEnv) (includeAny : Bytes → ParseState → Handle × ParseState) :
    Nat → List PathStep → Option AnythingToken → Bool → Slots Handle →
      ParseState → Bool × Slots Handle × ParseState
  | 0, _, _, _, slots, st => (false, slots, st)
  | fuel + 1, level, pending, ok, slots, st =>
    let (tok, st) :=
      match pending with
      | some tok => (tok, st)
      | none => st.token
    match parseElement env includeAny
        (fun level st => doParseSequence env includeAny fuel level none true [] st)
        level tok slots st with
    | .finished done slots st => (ok && done, slots, st)
    | .slot lastok slots st =>
      if st.stream.good then
        doParseSequence env includeAny fuel level none (ok && lastok) slots st
      else (false, slots, st)
    | .restart tok slots st =>
      doParseSequence env includeAny fuel level (some tok) ok slots st

/-- A value, and then the references in it. -/
def doParse (env : ParserEnv) (includeAny : Bytes → ParseState → Handle × ParseState)
    (st : ParseState) : Bool × Handle × ParseState :=
  let fuel := st.stream.rest.length + 1
  let (tok, st) := { st with xrefs := [] }.token
  let (ok, any, st) :=
    parseValue env (fun level st => doParseSequence env includeAny fuel level none true [] st)
      [] tok st
  (ok, any, { st with heap := patch any st.heap st.xrefs })

/-- `Anything::Import`.  After a syntax error the part that was read stays. -/
def importWith (env : ParserEnv) (includeAny : Bytes → ParseState → Handle × ParseState)
    (st : ParseState) : Bool × Handle × ParseState :=
  if st.stream.fail then (false, none, st) else doParse env includeAny st

/-- Protocol, file name and query of an include. -/
def splitUrl (url : Bytes) : Bytes × Bytes × Bytes :=
  let (protocol, fileName) :=
    if ch ':' ∈ url then
      (url.takeWhile (· ≠ ch ':'), (url.dropWhile (· ≠ ch ':')).tail)
    else ([], url)
  let query := (fileName.dropWhile (· ≠ ch '?')).tail
  let fileName := fileName.takeWhile (· ≠ ch '?')
  (protocol.map toupper, if fileName.take 3 = lit "///" then fileName.drop 3 else fileName, query)

/-- `AnythingParser::ImportIncludeAny`, to a given depth of included files:
the code has no bound of its own. -/
def importIncludeAny (env : ParserEnv) : Nat → Bytes → ParseState → Handle × ParseState
  | 0, _, st => (none, st)
  | depth + 1, url, st =>
    let (protocol, fileName, query) := splitUrl url
    if protocol = [] || protocol = lit "FILE" then
      match env.openStream fileName with
      | none => (none, st)
      | some contents =>
        let (ok, element, inner) :=
          importWith env (importIncludeAny env depth) { st with stream := IStream.ofText contents }
        let st := { st with erange := inner.erange, heap := inner.heap }
        if ok && query ≠ [] then
          let (steps, erange) := escapedQueryStringToAny query
          (st.heap.resolve element (steps.map some), { st with erange := st.erange || erange })
        else (element, st)
    else (none, st)

/-- Whether the import succeeded, and what it left. -/
structure Imported where
  ok : Bool
  any : Handle
  heap : Heap
  deriving DecidableEq

def importText (env : ParserEnv) (depth : Nat) (erange : Bool) (text : Bytes) : Imported :=
  let (ok, any, st) :=
    importWith env (importIncludeAny env depth) ⟨IStream.ofText text, erange, [], []⟩
  ⟨ok, any, st.heap⟩

end Coast
