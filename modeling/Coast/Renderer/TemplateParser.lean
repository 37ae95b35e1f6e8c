import Coast.Renderer.TemplateScanner

/-!
# The template parser

The loops of `DoParse` and `ParseAnything`, the tags that have a parser of
their own for their body, and `Parse`.
-/

namespace Coast

def Anything.removeKey (key : Bytes) : Anything → Anything
  | .array slots => .array (Slots.removeKey slots key)
  | any => any

namespace TemplateParser

/-- What stands behind an old style macro's beginning. -/
def isEmptyOrWd (p : TemplateParser) : Bool × TemplateParser :=
  let c := p.peek.1
  let p := p.peek.2
  if c.any isspace then (true, p)
  else if c.any fun c => StringRep.tolower c = ch 'w' then
    let p := p.get.2
    if p.peek.1.any fun c => StringRep.tolower c = ch 'd' then
      let p := p.peek.2.get.2
      if p.peek.1.any isspace then (true, p.peek.2)
      else (false, (p.peek.2.putBack (ch 'd')).putBack (ch 'w'))
    else (false, p.peek.2.putBack (ch 'w'))
  else (false, p)

abbrev HTMLScan := Byte × Collected

/-- One character of plain text, up to the end character or a macro. -/
def htmlTurn (endChar : Byte) : Collected → HTMLScan ⊕ Collected
  | (result, p) =>
    if p.isGood then
      .inl (endChar, result, p.error (lit "unexpected EOF"))
    else
      let c := p.get.1
      let p := p.get.2
      if c.any (· ≠ 0) then
        if c = some (ch '<') then
          let lookahead := p.peek.1
          let p := p.peek.2
          if lookahead = some (ch '?') || lookahead = some (ch '%') then
            let e := p.get.2.isEmptyOrWd
            if e.1 then .inl (toChar lookahead, result, e.2)
            else .inr (result ++ lit "<" ++ [toChar lookahead], e.2)
          else .inr (result ++ [toChar c], p)
        else .inr (result ++ [toChar c], p)
      else .inl (endChar, result, p.error (lit "unexpected EOF"))

def readHTMLAsString (endChar : Byte) (p : TemplateParser) : HTMLScan :=
  TurnLoop.run (htmlTurn endChar) (fun s => s.2.left) (fun s => (endChar, s)) ([], p)

/-- A loop inside of `ParseAnything`, with the character that it has read
last. -/
structure SkipScan where
  c : Option Byte
  collectany : Bytes
  parser : TemplateParser

def SkipScan.append (s : SkipScan) : SkipScan :=
  { s with collectany := s.collectany ++ [toChar s.c] }

/-- One character of a string in the Anything, with its escapes. -/
def skipStringTurn (s : SkipScan) : SkipScan ⊕ SkipScan :=
  if s.parser.isGood then .inl s
  else
    let s := { s with c := s.parser.get.1, parser := s.parser.get.2 }
    if s.c = some 0 || s.c = some (ch '"') then .inl s
    else if s.c = some (ch '\\') then
      .inr ⟨s.c, s.append.collectany ++ [toChar s.parser.get.1], s.parser.get.2⟩
    else .inr s.append

def skipLineTurn (s : SkipScan) : SkipScan ⊕ SkipScan :=
  if s.parser.isGood then .inl s
  else
    let s := { s with c := s.parser.get.1, parser := s.parser.get.2 }
    if s.c = some 0 || s.c = some (ch '\n') then .inl s else .inr s.append

def skipWith (turn : SkipScan → SkipScan ⊕ SkipScan) (s : SkipScan) : SkipScan :=
  TurnLoop.run turn (fun s => s.parser.left) (fun s => s) s

structure AnythingScan where
  bl : Int
  endChar : Byte
  collectany : Bytes
  parser : TemplateParser

/-- Braces are counted; strings and comments are skipped. -/
def collectChar (s : AnythingScan) (c : Option Byte) (p : TemplateParser) : AnythingScan :=
  let skipped := fun turn =>
    (skipWith turn (SkipScan.append ⟨c, s.collectany, p⟩)).append
  if c = some (ch '\x7b') then
    ⟨s.bl + 1, s.endChar, s.collectany ++ [toChar c], p⟩
  else if c = some (ch '\x7d') then
    ⟨s.bl - 1, s.endChar, s.collectany ++ [toChar c], p⟩
  else if c = some (ch '"') then
    ⟨s.bl, s.endChar, (skipped skipStringTurn).collectany, (skipped skipStringTurn).parser⟩
  else if c = some (ch '#') then
    ⟨s.bl, s.endChar, (skipped skipLineTurn).collectany, (skipped skipLineTurn).parser⟩
  else ⟨s.bl, s.endChar, s.collectany ++ [toChar c], p⟩

/-- One character of an Anything in the template, up to the closing brace. -/
def anythingTurn (s : AnythingScan) : Collected ⊕ AnythingScan :=
  if s.parser.isGood then .inl (s.collectany, s.parser)
  else
    let c := s.parser.get.1
    let p := s.parser.get.2
    if c = some 0 then .inl (s.collectany, p)
    else if c = some s.endChar then
      if p.peek.1 = some (ch '>') then
        let p := p.peek.2.get.2
        if s.bl = 0 then .inl (s.collectany, p)
        else if 0 < s.bl then
          let res := readHTMLAsString s.endChar p
          .inr ⟨s.bl, res.1, s.collectany ++ intPrintOn (ch '"') res.2.1, res.2.2⟩
        else .inl (s.collectany, p.error (lit "Too many closing \x7d"))
      else .inr (collectChar s c p.peek.2)
    else .inr (collectChar s c p)

def parseAnything (env : TemplateEnv) (endChar : Byte) (p : TemplateParser) : TemplateParser :=
  let s := TurnLoop.run anythingTurn (fun s => s.parser.left)
    (fun s => (s.collectany, s.parser)) ⟨0, endChar, lit "\x7b", p⟩
  let text := s.1 ++ lit "\x7d"
  { s.2 with imports := s.2.imports ++ [text] }.store (env.importAny text)

def processTag (tagName : Bytes) (tagAttributes : Anything) : Anything :=
  ((Anything.null.append (.charPtr (lit "<" ++ tagName))).assign
    (lit "OptionsPrinter") tagAttributes).append (.charPtr (lit ">"))

/-- The functions that the parsers for a body redefine. -/
structure SpecialTags where
  isSpecialTag : TemplateParser → Bytes → Anything → Bool
  processSpecialTag : Bytes → Anything → Bool → TemplateParser → Anything × TemplateParser

section DoParse

variable (env : TemplateEnv) (special : SpecialTags)

/-- A tag, handed on to its own processing if it is a special one. -/
def parseTagIn (p : TemplateParser) : TemplateParser :=
  let tag := parseTag env p
  let tagName := tag.1
  let s := tag.2
  if special.isSpecialTag s.parser tagName s.tagAttributes then
    let spec := special.processSpecialTag tagName s.tagAttributes s.needsRendering s.parser
    spec.2.store spec.1
  else if s.needsRendering then
    s.parser.store (processTag tagName s.tagAttributes)
  else
    s.parser.store (.charPtr (renderTagAsLiteral tagName s.tagAttributes))

/-- What stands behind an opening angle bracket: a comment, a tag or text. -/
def openTurn (p : TemplateParser) : Collected :=
  let lookahead := p.peek.1
  let p := p.peek.2
  if lookahead = some (ch '!') then
    let q := p.get.2
    let r := q.peek.2.putBack (ch '!')
    if q.peek.1 = some (ch '-') then
      ([], (oldStyleComment env r).2.store (oldStyleComment env r).1)
    else (lit "<", r)
  else if lookahead = some (ch '/') then
    let tagname := p.get.2.parseName.1
    let p := p.get.2.parseName.2
    let c := p.peek.1
    let p := p.peek.2
    if c = some (ch '>') then (lit "</" ++ tagname ++ lit ">", p.get.2)
    else
      (lit "</" ++ tagname,
        p.error (lit "Unexpected character <x" ++ appendAsHex (toChar c) ++ lit ">"))
  else if lookahead = some (ch '?') || lookahead = some (ch '%') then
    let e := p.get.2.isEmptyOrWd
    if e.1 then ([], parseAnything env (toChar lookahead) e.2)
    else (lit "<", e.2.putBack (toChar lookahead))
  else if lookahead.any isValidNameChar then
    ([], parseTagIn env special p)
  else (lit "<", p)

/-- One turn of `DoParse`, with the text since the last tag. -/
def doParseTurn : Collected → TemplateParser ⊕ Collected
  | (reply, p) =>
    let c := p.get.1
    let p := p.get.2
    if c.any (· ≠ 0) then
      if c = some (ch '<') then
        .inr (openTurn env special (p.storeText reply))
      else if c = some (ch '[') then
        if p.peek.1 = some (ch '[') then
          let macro_ := macro_ env (p.peek.2.storeText reply)
          .inr ([], macro_.2.store macro_.1)
        else .inr (reply ++ [toChar c], p.peek.2)
      else .inr (reply ++ [toChar c], p)
    else .inl (p.storeText reply)

def doParse (p : TemplateParser) : TemplateParser :=
  TurnLoop.run (doParseTurn env special) (fun s => s.2.left) (fun s => s.2) ([], p)

/-- One turn inside of a script, which only its end tag ends. -/
def scriptTurn : Collected → TemplateParser ⊕ Collected
  | (reply, p) =>
    let c := p.get.1
    let p := p.get.2
    if c.any (· ≠ 0) then
      if c = some (ch '<') then
        let p := p.storeText reply
        let lookahead := p.peek.1
        let p := p.peek.2
        if lookahead = some (ch '?') || lookahead = some (ch '%') then
          let e := p.get.2.isEmptyOrWd
          if e.1 then .inr ([], parseAnything env (toChar lookahead) e.2)
          else .inr (lit "<", e.2.putBack (toChar lookahead))
        else .inr (lit "<", p)
      else if c = some (ch '[') then
        if p.peek.1 = some (ch '[') then
          let macro_ := macro_ env (p.peek.2.storeText reply)
          .inr ([], macro_.2.store macro_.1)
        else .inr (reply ++ [toChar c], p.peek.2)
      else .inr (reply ++ [toChar c], p)
    else .inl (p.storeText reply)

def scriptDoParse (p : TemplateParser) : TemplateParser :=
  TurnLoop.run (scriptTurn env) (fun s => s.2.left) (fun s => s.2) ([], p)

end DoParse

def compactSlot (s : Anything × Bytes) (slot : Bytes × Anything) : Anything × Bytes :=
  match slot.2 with
  | .charPtr text => (s.1, s.2 ++ cstr text)
  | any => ((storeInto s.1 s.2).append any, [])

def compactHTMLBlocks (cache : Anything) : Anything :=
  let s := cache.slots.foldl compactSlot (.null, [])
  storeInto s.1 s.2

def parseWith (run : TemplateParser → TemplateParser) (p : TemplateParser) :
    Anything × TemplateParser :=
  let q := run { p with cache := .null }
  (compactHTMLBlocks q.cache, q)

def parseBody (run : TemplateParser → TemplateParser) (body : Bytes)
    (startline : Int) (p : TemplateParser) : Anything × TemplateParser :=
  let inner := parseWith run
    { p with reader := .ofText body, line := startline, config := ([], none) }
  (inner.1, { p with errors := inner.2.errors, imports := inner.2.imports })

/-- One turn over a body, up to the end tag of this name. -/
def endTagTurn (tagName : Bytes) : Collected → Collected ⊕ Collected
  | (result, p) =>
    if p.isGood then .inl (result, p.error (lit "unexpected EOF"))
    else
      let c := p.get.1
      let p := p.get.2
      if c = some 0 then .inl (result, p.error (lit "unexpected EOF"))
      else if c = some (ch '<') then
        if p.peek.1 = some (ch '/') then
          let name := p.peek.2.get.2.parseName
          if tagName.map StringRep.tolower = name.1.map StringRep.tolower then
            if name.2.peek.1 = some (ch '>') then
              .inl (result, name.2.peek.2.get.2)
            else .inr (result ++ lit "</" ++ name.1, name.2.peek.2)
          else .inr (result ++ lit "</" ++ name.1, name.2)
        else .inr (result ++ [toChar c], p.peek.2)
      else .inr (result ++ [toChar c], p)

def parseAsStringUpToEndTag (tagName : Bytes) (p : TemplateParser) : Collected :=
  TurnLoop.run (endTagTurn tagName) (fun s => s.2.left) (fun s => s) ([], p)

def frFieldPrefix : Bytes := lit "fld_"
def frButtonPrefix : Bytes := lit "b_"
def frImagePrefix : Bytes := lit "i_"

def lacksPrefix (any : Anything) (pattern : Bytes) : Bool :=
  StringRep.strstr pattern (cstr any.asString) ≠ some 0

/-- `FormTemplateParser`: the fields of a form. -/
def formTags : SpecialTags where
  isSpecialTag := fun _ tagName _ =>
    let tag := tagName.map StringRep.tolower
    tag = lit "input" || tag = lit "textarea" || tag = lit "select" || tag = lit "button"
  processSpecialTag := fun tagName tagAttributes mustrender p =>
    let tag := tagName.map StringRep.tolower
    let name := tagAttributes.atKey (lit "name")
    let type := (tagAttributes.atKey (lit "type")).asString.map StringRep.tolower
    let tagAttributes :=
      if (tag = lit "input" || tag = lit "textarea" ||
            tag = lit "select") && tagAttributes.isDefined (lit "name") &&
          lacksPrefix name frFieldPrefix then
        let theName :=
          if tagAttributes.isDefined (lit "type") then
            if isEqual type (lit "submit") then frButtonPrefix
            else if isEqual type (lit "image") then frImagePrefix
            else frFieldPrefix
          else frFieldPrefix
        tagAttributes.assign (lit "name") (.charPtr (theName ++ name.asString))
      else if tag = lit "button" && tagAttributes.isDefined (lit "name") &&
          lacksPrefix name frButtonPrefix then
        tagAttributes.assign (lit "name") (.charPtr (frButtonPrefix ++ name.asString))
      else tagAttributes
    if mustrender then (processTag tag tagAttributes, p)
    else (.charPtr (renderTagAsLiteral tag tagAttributes), p)

section Template

variable (env : TemplateEnv)

/-- `MVATTR`: an attribute of the tag becomes one of the renderer. -/
def moveAttribute (name dflt : Bytes) (s : Anything × Anything) : Anything × Anything :=
  let lowername := name.map StringRep.tolower
  if s.2.isDefined lowername then
    (s.1.assign name (s.2.atKey lowername), s.2.removeKey lowername)
  else if dflt ≠ [] then
    (s.1.assign name (.charPtr dflt), s.2.removeKey lowername)
  else s

/-- The attributes of a form become slots of their own, the body its layout. -/
def processFormTag (tagAttributes : Anything) (body : Bytes)
    (startline : Int) (p : TemplateParser) : Anything × TemplateParser :=
  let s := moveAttribute (lit "Method") (lit "GET") (.null, tagAttributes)
  let s := moveAttribute (lit "Action") [] s
  let s := moveAttribute (lit "EncType") [] s
  let s := moveAttribute (lit "Target") [] s
  let s := moveAttribute (lit "BaseAddr") [] s
  let formrenderer := match s.2 with
    | .null => s.1
    | options => s.1.assign (lit "Options") options
  let layout := parseBody (doParse env formTags) body startline p
  ((Anything.array []).assign (lit "FormRenderer")
    (formrenderer.assign (lit "Layout") layout.1), layout.2)

def processScriptTag (tagName : Bytes) (tagAttributes : Anything)
    (body : Bytes) (startline : Int) (p : TemplateParser) :
    Anything × TemplateParser :=
  let script := parseBody (scriptDoParse env) body startline p
  (((processTag tagName tagAttributes).append script.1).append
    (.charPtr (lit "</" ++ tagName ++ lit ">")), script.2)

def isAction (p : TemplateParser) (action : Bytes) : Bool :=
  env.findAction action ||
    (ch '/' ∈ p.fileName &&
      let pageName := (p.fileName.reverse.takeWhile (· ≠ ch '/')).reverse
      env.roles.any (fun role => role action pageName) ||
        ((env.findPage pageName).any fun lookup => lookup action))

/-- `TemplateParser`: scripts, and forms with an action. -/
def templateTags : SpecialTags where
  isSpecialTag := fun p tagName tagAttributes =>
    let tag := tagName.map StringRep.tolower
    let action := tagAttributes.atKey (lit "action")
    tag = lit "script" ||
      (tag = lit "form" && tagAttributes.isDefined (lit "action") &&
        action.asString ≠ [] && isAction env p action.charPtrText)
  processSpecialTag := fun tagName tagAttributes _ p =>
    let tag := tagName.map StringRep.tolower
    let body := p.parseAsStringUpToEndTag tag
    if tag = lit "script" then
      processScriptTag env tag tagAttributes body.1 p.line body.2
    else processFormTag env tagAttributes body.1 p.line body.2

def parse (reader : IStream) (filename : Bytes) (startline : Int)
    (config : Heap × Handle) : Anything × TemplateParser :=
  parseWith (doParse env (templateTags env)) ⟨reader, filename, startline, .null, config, [], []⟩

end Template

end TemplateParser

end Coast
