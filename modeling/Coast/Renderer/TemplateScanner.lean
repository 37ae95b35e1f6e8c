import Coast.Base.AnyReference
import Coast.Renderer.TemplateReader

/-!
# The scanning functions of the template parser

Names, macros and old style comments.  Every loop is given by its turns.
-/

namespace Coast

structure TemplateEnv where
  /-- What `Anything::Import` makes of a text. -/
  importAny : Bytes → Anything
  /-- Whether `Renderer::FindRenderer` finds one. -/
  findRenderer : Bytes → Bool
  /-- Whether `Action::FindAction` finds one. -/
  findAction : Bytes → Bool
  /-- Whether a role of the registry has an entry for a transition on a page
  or stays on the page with it. -/
  roles : List (Bytes → Bytes → Bool)
  /-- The page of a name, if there is one: what its `Lookup` finds. -/
  findPage : Bytes → Option (Bytes → Bool)

namespace TemplateParser

def isValidNameChar (c : Byte) : Bool :=
  isalpha c || c = ch '-' || c = ch '_' || c = ch '.' || c = ch ':'

def whitespaceTurn (p : TemplateParser) : TemplateParser ⊕ TemplateParser :=
  if p.isGood then .inl p
  else if p.peek.1.any isspace then .inr p.peek.2.get.2
  else .inl p.peek.2

def skipWhitespace (p : TemplateParser) : TemplateParser :=
  TurnLoop.run whitespaceTurn left (fun p => p) p

abbrev Collected := Bytes × TemplateParser

def continuesName (theName : Bytes) (c : Byte) : Bool :=
  isValidNameChar c || (isdigit c && 0 < theName.length)

def nameTurn : Collected → Collected ⊕ Collected
  | (theName, p) =>
    if p.isGood then .inl (theName, p)
    else if p.peek.1.any (continuesName theName) then
      .inr (theName ++ [toChar p.peek.2.get.1], p.peek.2.get.2)
    else .inl (theName, p.peek.2)

def parseName (p : TemplateParser) : Collected :=
  TurnLoop.run nameTurn (fun s => s.2.left) (fun s => s) ([], p)

/-- One character of a renderer's name. -/
def keyTurn : Collected → Collected ⊕ Collected
  | (theName, p) =>
    if p.isGood then .inl (theName, p)
    else
      let c := p.peek.1
      let p := p.peek.2
      if c.any (fun c => c ≠ 0 && !isspace c) then
        if c = some (ch ']') then
          let p := p.get.2
          if p.peek.1 = some (ch ']') then
            .inl (theName, (p.peek.2.putBack (ch ']')).error (lit "unexpected macro end"))
          else
            let p := p.peek.2
            .inr (theName ++ [toChar p.get.1], p.get.2)
        else .inr (theName ++ [toChar p.get.1], p.get.2)
      else .inl (theName, p)

def parseUpToWhitespaceOrMacroEnd (p : TemplateParser) : Collected :=
  TurnLoop.run keyTurn (fun s => s.2.left) (fun s => s) ([], p)

/-- The arguments of a macro are imported for the renderer. -/
def processArgs (env : TemplateEnv) (renderer args : Bytes)
    (p : TemplateParser) : Anything × TemplateParser :=
  let p := if args = [] then p else { p with imports := p.imports ++ [args] }
  let aargs : Anything :=
    if args = [] then .null
    else
      match env.importAny args with
      | .array slots => .array slots
      | readit => .array [([], readit)]
  if env.findRenderer (cstr renderer) then
    (Anything.null.assign renderer aargs, p)
  else if renderer = [] then (Anything.null.append aargs, p)
  else
    let errmsg := lit "**** TemplateParser: Renderer " ++ renderer ++ lit " not found ****"
    (.charPtr errmsg, p.error errmsg)

/-- One character of a macro's arguments, up to its closing bracket. -/
def macroArgsTurn : Collected → Collected ⊕ Collected
  | (args, p) =>
    if p.isGood then .inl (args, p)
    else
      let c := p.get.1
      let p := p.get.2
      if c.any (· ≠ 0) then
        if c = some (ch ']') then
          if p.peek.1 = some (ch ']') then .inl (args, p.peek.2.get.2)
          else .inr (args ++ [toChar c], p.peek.2)
        else .inr (args ++ [toChar c], p)
      else .inl (args, p)

def macroArgs (p : TemplateParser) : Collected :=
  TurnLoop.run macroArgsTurn (fun s => s.2.left) (fun s => s) ([], p)

def wdMacro (env : TemplateEnv) (p : TemplateParser) : Anything × TemplateParser :=
  let p := p.skipWhitespace
  let p := if p.peek.1 = some (ch '/') then p.peek.2.get.2 else p.peek.2
  let key := p.parseUpToWhitespaceOrMacroEnd
  let args := key.2.skipWhitespace.macroArgs
  processArgs env key.1 args.1 args.2

/-- A macro in brackets, or the text that it turns out to be. -/
def macro_ (env : TemplateEnv) (p : TemplateParser) : Anything × TemplateParser :=
  let c := p.get.1
  let p := p.get.2
  let reply := lit "[" ++ [toChar c]
  if c = some (ch '[') then
    let c := p.get.1
    let p := p.get.2
    let reply := reply ++ [toChar c]
    if c = some (ch '#') then
      let interpreter := p.parseName.1.map StringRep.tolower
      let p := p.parseName.2
      if interpreter = lit "wd" then wdMacro env p
      else
        (.charPtr (reply ++ interpreter),
          p.error (lit "Unknown macro interpreter <" ++ interpreter ++ lit "> expected [[#wd "))
    else (.charPtr reply, p)
  else (.charPtr reply, p)

/-! ## Old style comments -/

/-- `OldStyleComment` after some `GSR`. -/
structure CommentScan where
  c : Option Byte
  comment : Bytes
  parser : TemplateParser

namespace CommentScan

def gsr (s : CommentScan) : CommentScan :=
  ⟨s.parser.get.1, s.comment ++ [toChar s.parser.get.1], s.parser.get.2⟩

/-- A bound for the turns that look at the character first. -/
def size (s : CommentScan) : Nat := s.parser.left + live s.c

def spaceTurn (s : CommentScan) : CommentScan ⊕ CommentScan :=
  if s.gsr.c.any isspace then .inr s.gsr else .inl s.gsr

def skipSpace (s : CommentScan) : CommentScan :=
  TurnLoop.run spaceTurn (fun s => s.parser.left) (fun s => s) s

def wordTurn : Bytes × CommentScan → (Bytes × CommentScan) ⊕ (Bytes × CommentScan)
  | (word, s) =>
    if s.gsr.c.any isalnum then .inr (word ++ [toChar s.gsr.c], s.gsr)
    else .inl (word, s.gsr)

def readWord (s : CommentScan) : Bytes × CommentScan :=
  TurnLoop.run wordTurn (fun s => s.2.parser.left) (fun s => s) ([], s)

def moreSpaceTurn (s : CommentScan) : CommentScan ⊕ CommentScan :=
  if s.c.any isspace then .inr s.gsr else .inl s

def skipMoreSpace (s : CommentScan) : CommentScan := TurnLoop.run moreSpaceTurn size (fun s => s) s

def dashTurn (s : CommentScan) : CommentScan ⊕ CommentScan :=
  if s.c = some (ch '-') then .inr s.gsr else .inl s

def skipDashes (s : CommentScan) : CommentScan := TurnLoop.run dashTurn size (fun s => s) s

/-- One character of a comment that is left out. -/
def skipTurn (s : CommentScan) : CommentScan ⊕ CommentScan :=
  if s.c.any (· ≠ 0) then
    if s.c = some (ch '-') then
      let s := s.gsr
      if s.c = some (ch '-') then
        let s := s.gsr.skipDashes
        if s.c = some (ch '>') then .inl s else .inr s.gsr
      else .inr s.gsr
    else .inr s.gsr
  else .inl s

def skipComment (s : CommentScan) : CommentScan := TurnLoop.run skipTurn size (fun s => s) s

def gsrArgs (s : Bytes × CommentScan) : Bytes × CommentScan := (s.1 ++ [toChar s.2.gsr.c], s.2.gsr)

def argsDashTurn (s : Bytes × CommentScan) : (Bytes × CommentScan) ⊕ (Bytes × CommentScan) :=
  if s.2.c = some (ch '-') then .inr (gsrArgs s) else .inl s

def argsDashes (s : Bytes × CommentScan) : Bytes × CommentScan :=
  TurnLoop.run argsDashTurn (fun s => s.2.size) (fun s => s) s

/-- One character of the arguments of an old style macro. -/
def argsTurn : Bytes × CommentScan → (Bytes × CommentScan) ⊕ (Bytes × CommentScan)
  | (args, s) =>
    if s.c.any (· ≠ 0) then
      let args := args ++ [toChar s.c]
      if s.c = some (ch '-') then
        let t := gsrArgs (args, s)
        if t.2.c = some (ch '-') then
          let t := argsDashes (gsrArgs t)
          if t.2.c = some (ch '>') then .inl t else .inr (t.1, t.2.gsr)
        else .inr (t.1, t.2.gsr)
      else .inr (args, s.gsr)
    else .inl (args, s)

def readArgs (s : CommentScan) : Bytes × CommentScan :=
  TurnLoop.run argsTurn (fun s => s.2.size) (fun s => s) ([], s)

/-- A comment in the format of the library, behind its `#wd`. -/
def wdComment (env : TemplateEnv) (s : CommentScan) : Anything × TemplateParser :=
  let key := s.readWord
  let args := key.2.skipMoreSpace.readArgs
  processArgs env key.1 args.1 (args.2.parser.error (lit "Old style macro comment used"))

/-- A comment behind its `<!--`. -/
def insideComment (env : TemplateEnv) (s : CommentScan) : Anything × TemplateParser :=
  let s := s.skipSpace
  let word := if s.c = some (ch '#') then s.readWord else ([], s)
  if word.1 = lit "wd" then wdComment env word.2
  else (.charPtr word.2.skipComment.comment, word.2.skipComment.parser)

end CommentScan

/-- A comment, which may be a macro of the old style. -/
def oldStyleComment (env : TemplateEnv) (p : TemplateParser) : Anything × TemplateParser :=
  let s := (CommentScan.mk none (lit "<") p).gsr
  if s.c = some (ch '!') then
    let s := s.gsr
    if s.c = some (ch '-') then
      let s := s.gsr
      if s.c = some (ch '-') then s.insideComment env
      else (.charPtr s.comment, s.parser)
    else (.charPtr s.comment, s.parser)
  else (.charPtr s.comment, s.parser)

end TemplateParser

/-!
## Tags of a template

`ParseTag` reads a tag with its attributes and `RenderTagAsLiteral` writes it
out again.
-/

namespace TemplateParser

/-- A value in quotes: what is stored before a macro, and the text so far. -/
structure QuotedScan where
  result : Anything
  value : Bytes
  parser : TemplateParser

/-- One character of a value in quotes, which may have macros in it. -/
def quotedTurn (env : TemplateEnv) (quote : Byte) (s : QuotedScan) : QuotedScan ⊕ QuotedScan :=
  if s.parser.isGood then .inl s
  else
    let c := s.parser.get.1
    let p := s.parser.get.2
    if c = some quote then .inl { s with parser := p }
    else if c = some (ch '[') then
      if p.peek.1 = some (ch '[') then
        let subvalue := macro_ env p.peek.2
        .inr ⟨(storeInto s.result s.value).append subvalue.1, [], subvalue.2⟩
      else .inr ⟨s.result, s.value ++ [toChar c], p.peek.2⟩
    else .inr ⟨s.result, s.value ++ [toChar c], p⟩

def quotedValue (env : TemplateEnv) (quote : Byte) (p : TemplateParser) :
    Anything × TemplateParser :=
  let s := TurnLoop.run (quotedTurn env quote) (fun s => s.parser.left) (fun s => s) ⟨.null, [], p⟩
  match s.result with
  | .null => (.charPtr s.value, s.parser)
  | result => (storeInto result s.value, s.parser)

def legacyTurn (more : Byte → Bool) : Collected → Collected ⊕ Collected
  | (value, p) =>
    let value := value ++ [toChar p.get.1]
    let p := p.get.2
    if p.peek.1.any more then .inr (value, p.peek.2)
    else .inl (value, p.peek.2)

def legacyValue (more : Byte → Bool) (p : TemplateParser) : Collected :=
  TurnLoop.run (legacyTurn more) (fun s => s.2.left) (fun s => s) ([], p)

def isPercentage (c : Byte) : Bool := isdigit c || c = ch '%'

/-- A value: a macro, a text in quotes, or a name. -/
def parseValue (env : TemplateEnv) (p : TemplateParser) : Anything × TemplateParser :=
  let c := p.peek.1
  let p := p.peek.2
  if c = some (ch '[') then macro_ env p.get.2
  else if c = some (ch '\'') || c = some (ch '"') then
    quotedValue env (toChar c) p.get.2
  else if c.any isValidNameChar then
    (.charPtr p.parseName.1, p.parseName.2)
  else if c.any isdigit then
    (.charPtr (p.legacyValue isPercentage).1, (p.legacyValue isPercentage).2)
  else if c = some (ch '#') then
    (.charPtr (p.legacyValue isxdigit).1, (p.legacyValue isxdigit).2)
  else (.charPtr [], p)

/-- The spelling of attributes that the configuration asks for. -/
def attrNameCase (config : Heap × Handle) (tagName : Bytes) : Bytes :=
  let heap := config.1
  let lookup := fun any path =>
    (ROAnything.lookupPath heap any path (ch '.') (ch ':')).2
  let tags := match lookup config.2 (lit "Tags") with
    | none => none
    | some tags => (lookup tags tagName).getD tags
  let setting := ((heap.slots tags).lookup (lit "AttrNameCase")).join
  (((heap.impl setting).map AnyImpl.asString).getD (lit "lower")).map StringRep.tolower

def adjustCase (strCase name : Bytes) : Bytes :=
  if strCase = [] || isEqual strCase (lit "lower") then
    name.map StringRep.tolower
  else if isEqual strCase (lit "upper") then name.map toupper
  else name

structure Attribute where
  /-- Whether there was a value. -/
  found : Bool
  name : Bytes
  value : Anything
  parser : TemplateParser

def parseAttribute (env : TemplateEnv) (tagName : Bytes) (p : TemplateParser) : Attribute :=
  let name := adjustCase (attrNameCase p.config tagName) p.parseName.1
  let p := p.parseName.2.skipWhitespace
  if p.peek.1 = some (ch '=') then
    let value := parseValue env p.peek.2.get.2
    ⟨true, name, value.1, value.2⟩
  else ⟨false, name, .charPtr [], p.peek.2⟩

structure TagScan where
  needsRendering : Bool
  tagAttributes : Anything
  parser : TemplateParser

def isArray : Anything → Bool
  | .array _ => true
  | _ => false

/-- An attribute is stored under its name, or appended without a value. -/
def attributeTurn (env : TemplateEnv) (tagName : Bytes) (s : TagScan)
    (p : TemplateParser) : TagScan :=
  let a := parseAttribute env tagName p
  if a.found then
    ⟨s.needsRendering || isArray a.value, s.tagAttributes.assign a.name a.value, a.parser⟩
  else if a.name ≠ [] then
    ⟨s.needsRendering, s.tagAttributes.append (.charPtr a.name), a.parser⟩
  else
    let msg := lit "Unexpected character <" ++
      appendAsHex (toChar a.parser.get.1) ++ lit "> near " ++ tagName
    -- `String(char(c))` reserves so many characters and is empty
    ⟨s.needsRendering, s.tagAttributes.append (.charPtr []), a.parser.get.2.error msg⟩

/-- One turn of `ParseTag`: a macro, an attribute, or the end of the tag. -/
def tagTurn (env : TemplateEnv) (tagName : Bytes) (s : TagScan) : TagScan ⊕ TagScan :=
  if s.parser.isGood then .inl s
  else
    let p := s.parser.skipWhitespace
    let c := p.peek.1
    let p := p.peek.2
    if c = some (ch '[') then
      let a := macro_ env p.get.2
      let p := a.2.skipWhitespace
      if p.peek.1 = some (ch '=') then
        let value := parseValue env p.peek.2.get.2
        .inr ⟨true, s.tagAttributes.append
          ((a.1.append (.charPtr (lit "="))).append value.1), value.2⟩
      else .inr ⟨true, s.tagAttributes.append a.1, p.peek.2⟩
    else if c = some (ch '>') then .inl { s with parser := p.get.2 }
    else if c = some (ch '/') then
      let p := p.get.2
      if p.peek.1 = some (ch '>') then
        .inl ⟨s.needsRendering, s.tagAttributes.append (.charPtr (lit "/")), p.peek.2.get.2⟩
      else
        .inr (attributeTurn env tagName s (p.peek.2.putBack (ch '/')))
    else .inr (attributeTurn env tagName s p)

def parseTag (env : TemplateEnv) (p : TemplateParser) : Bytes × TagScan :=
  (p.parseName.1, TurnLoop.run (tagTurn env p.parseName.1) (fun s => s.parser.left)
      (fun s => s) ⟨false, .null, p.parseName.2⟩)

/-- An attribute is written back; without a name it is its value only. -/
def renderAttribute : Bytes × Anything → Bytes
  | (slotName, value) =>
    lit " " ++
      if slotName ≠ [] then
        match value with
        | .charPtr text => slotName ++ lit "=\"" ++ cstr text ++ lit "\""
        | _ => slotName
      else value.charPtrText

def renderTagAsLiteral (tagName : Bytes) (tagAttributes : Anything) : Bytes :=
  lit "<" ++ tagName ++ tagAttributes.slots.flatMap renderAttribute ++ lit ">"

end TemplateParser

end Coast
