import Coast.Base.StringRuns
import Coast.Base.TextStream
import Coast.Io.URLSplit

/-!
# MIME headers

`MIMEHeader::ParseHeaders` reads lines up to an empty one and stores their
fields under names that are normalized by the tag of the header.
-/

namespace Coast

def LF : Byte := ch '\n'

def CR : Byte := ch '\r'

def cDefaultMaxHeaderSz : Nat := 4096

def cDefaultMaxLineSz : Nat := 1024

namespace HTTPConstants

/-- The alternatives of `splitFieldsRegularExpression` that may go on. -/
def splitFields : List Bytes :=
  [lit "accept", lit "allow", lit "cache-control", lit "connection",
    lit "content-encoding", lit "content-language", lit "expect",
    lit "If-None-Match", lit "pragma", lit "Proxy-Authenticate",
    lit "trailer", lit "Transfer-Encoding", lit "upgrade", lit "vary",
    lit "via", lit "warning", lit "WWW-Authenticate"]

def contentTypeAnything : Bytes := lit "application/x-coast-anything"

def contentTypeMultipart : Bytes := lit "multipart/part"

def contentDispositionSlotname : Bytes := lit "CONTENT-DISPOSITION"

def contentTypeSlotname : Bytes := lit "CONTENT-TYPE"

def contentLengthSlotname : Bytes := lit "CONTENT-LENGTH"

def boundarySlotname : Bytes := lit "BOUNDARY"

end HTTPConstants

open URLUtils HTTPConstants

/-- What reading a header throws. -/
inductive MIMEException where
  | streamNotGood
  | invalidLine (line : Bytes)
  | lineSizeExceeded (line : Bytes) (maxSize actualSize : Nat)
  | requestSizeExceeded (line : Bytes) (maxSize actualSize : Nat)
  deriving DecidableEq, Repr

namespace StreamUtils

/-- A line with its line feed, which may be one character beyond the limit. -/
def getLineFromStream (is : TextStream) (maxlinelen : Nat) :
    Except MIMEException Bytes × TextStream :=
  if !is.good then (.error .streamNotGood, is)
  else
    let (line, is) := is.appendUntil LF maxlinelen
    let (next, is) := is.peek
    let (c, is) := if next.isSome then is.get else (none, is)
    let line := line ++ c.toList
    if maxlinelen < line.length then
      (.error (.lineSizeExceeded line maxlinelen line.length), is)
    else (.ok line, is)

end StreamUtils

/-- A header with its fields, their length, and how names are normalized. -/
structure MIMEHeader where
  fHeader : Anything
  fParsedHeaderLength : Nat
  fNormalizeKey : NormalizeTag

namespace MIMEHeader

def create (normalizeKey : NormalizeTag) : MIMEHeader := ⟨.null, 0, normalizeKey⟩

def isMultiValue (strKey : Bytes) : Bool :=
  splitFields.any (fun field =>
      (field.map toupper).isPrefixOf (strKey.map toupper)) ||
    strKey.map toupper = lit "TE"

/-- Lists and dispositions are split, other values are appended. -/
def storeKeyValue (headers : Anything) (strKey strValue : Bytes) : Anything :=
  if isMultiValue strKey then
    headers.assign strKey (split strValue (ch ',') (headers.atKey strKey) (ch ',') .eUpshift)
  else if cstr strKey = contentDispositionSlotname then
    headers.assign strKey (split strValue (ch ';') (headers.atKey strKey) (ch '=') .eUpshift)
  else appendValueTo headers strKey strValue

def multipartBoundary (contenttype : Bytes) : Option Bytes :=
  if 9 ≤ contenttype.length ∧ (contains contenttype (lit "multipart")).isSome
  then
    match contains contenttype (lit "boundary=") with
    | some index => if 0 < index then some (contenttype.drop (index + 9)) else none
    | none => none
  else none

def shiftedHeaderKey (key : Bytes) (shiftFlag : NormalizeTag) : Bytes := normalize key shiftFlag

def checkMultipartBoundary (contenttype : Bytes) (header : Anything)
    (shiftFlag : NormalizeTag) : Anything :=
  match multipartBoundary contenttype with
  | some strBoundary =>
    header.assign (shiftedHeaderKey boundarySlotname shiftFlag) (.charPtr strBoundary)
  | none => header

/-- The name stands in front of the colon; without one the line is not valid. -/
def splitAndAddHeaderLine (headers : Anything) (line : Bytes)
    (normTag : NormalizeTag) : Except MIMEException Anything :=
  match strChr line (ch ':') with
  | none | some 0 => .error (.invalidLine line)
  | some pos =>
    let fieldname := shiftedHeaderKey (line.take pos) normTag
    let fieldvalue := line.drop (pos + 1)
    let trimmed := trimBlanks fieldvalue
    let headers :=
      if fieldvalue ≠ [] then storeKeyValue headers fieldname trimmed
      else headers
    .ok (if fieldname = shiftedHeaderKey contentTypeSlotname normTag then
      checkMultipartBoundary trimmed headers normTag
    else headers)

/-- Line after line, up to an empty one. -/
def parseHeadersLoop (maxlinelen maxheaderlen : Nat) :
    Nat → MIMEHeader → TextStream →
      Option (Except MIMEException MIMEHeader × TextStream)
  | 0, _, _ => none
  | fuel + 1, this, is =>
    match StreamUtils.getLineFromStream is maxlinelen with
    | (.error exception, is) => some (.error exception, is)
    | (.ok line, is) =>
      let this :=
        { this with
          fParsedHeaderLength := this.fParsedHeaderLength + line.length }
      let line := trimENDL line
      if line.length = 0 then some (.ok this, is)
      else if maxheaderlen < this.fParsedHeaderLength then
        some (.error (.requestSizeExceeded line maxheaderlen this.fParsedHeaderLength), is)
      else
        match splitAndAddHeaderLine this.fHeader line this.fNormalizeKey with
        | .error exception => some (.error exception, is)
        | .ok headers =>
          parseHeadersLoop maxlinelen maxheaderlen fuel { this with fHeader := headers } is

def parseHeaders (this : MIMEHeader) (is : TextStream) (maxlinelen maxheaderlen : Nat) :
    Option (Except MIMEException MIMEHeader × TextStream) :=
  parseHeadersLoop maxlinelen maxheaderlen (is.rest.length + 1) this is

def lookup (this : MIMEHeader) (key : Bytes) : Anything :=
  this.fHeader.atKey (shiftedHeaderKey key this.fNormalizeKey)

def getBoundary (this : MIMEHeader) : Bytes := (this.lookup boundarySlotname).asString

def isMultiPart (this : MIMEHeader) : Bool := 0 < this.getBoundary.length

def getContentLength (this : MIMEHeader) : Int :=
  match this.lookup contentLengthSlotname with
  | .charPtr value => (asLong value (-1)).1.toInt
  | .long value => value.toInt
  | _ => -1

end MIMEHeader

/-! ## Lines of a header -/

open List

namespace StreamUtils

theorem getLineFromStream_line {line rest : Bytes} {maxlinelen : Nat}
    (inside : LF ∉ line) (short : line.length + 2 ≤ maxlinelen) :
    getLineFromStream (.ofText (line ++ CR :: LF :: rest)) maxlinelen =
      (.ok (line ++ [CR, LF]), .ofText rest) := by
  have inside' : LF ∉ line ++ [CR] := by
    intro member
    rcases mem_append.mp member with inLine | isCR
    · exact inside inLine
    · exact absurd (mem_singleton.mp isCR) (by decide)
  have fits : (line ++ [CR]).length ≤ maxlinelen := by
    rw [length_append, length_singleton]
    omega
  have reads : (TextStream.ofText (line ++ CR :: LF :: rest)).appendUntil LF
      maxlinelen = (line ++ [CR], .ofText (LF :: rest)) := by
    rw [append_cons]
    exact TextStream.appendUntil_line (by omega) inside' fits
  have all : (line ++ [CR] ++ [LF]).length = line.length + 2 := by
    rw [append_assoc, length_append]
    rfl
  have both : line ++ [CR] ++ [LF] = line ++ [CR, LF] := append_assoc line [CR] [LF]
  unfold getLineFromStream
  rw [TextStream.good_ofText, reads]
  show (if maxlinelen < (line ++ [CR] ++ [LF]).length then _
    else (Except.ok (line ++ [CR] ++ [LF]), TextStream.ofText rest)) = _
  rw [all, if_neg (by omega), both]

end StreamUtils

namespace MIMEHeader

/-- A line with a name, a colon and a value. -/
theorem splitAndAddHeaderLine_field (headers : Anything) {name : Bytes} (value : Bytes)
    (tag : NormalizeTag) (named : name ≠ []) (inside : ch ':' ∉ name) (some' : value ≠ []) :
    splitAndAddHeaderLine headers (name ++ ch ':' :: value) tag =
      .ok (if shiftedHeaderKey name tag = shiftedHeaderKey contentTypeSlotname tag then
        checkMultipartBoundary (trimBlanks value)
          (storeKeyValue headers (shiftedHeaderKey name tag) (trimBlanks value)) tag
      else storeKeyValue headers (shiftedHeaderKey name tag) (trimBlanks value)) := by
  obtain ⟨n, isLong⟩ : ∃ n, name.length = n + 1 := ⟨name.length - 1, by
      have long := length_pos_iff.mpr named
      omega⟩
  have front : (name ++ ch ':' :: value).take (n + 1) = name := by
    rw [← isLong]
    exact take_left
  have behind : (name ++ ch ':' :: value).drop (n + 1 + 1) = value := by
    rw [← isLong, ← drop_drop, drop_left]
    rfl
  unfold splitAndAddHeaderLine
  rw [strChr_append inside, isLong]
  show Except.ok (if shiftedHeaderKey ((name ++ ch ':' :: value).take (n + 1)) tag = _
    then _ else _) = _
  rw [front, behind, if_pos some']

/-- One line more, if the header does not get too long. -/
theorem parseHeadersLoop_line {this : MIMEHeader} {line : Bytes} {headers : Anything}
    {maxlinelen maxheaderlen : Nat} (inside : LF ∉ line) (some_ : line ≠ [])
    (short : line.length + 2 ≤ maxlinelen)
    (adds : splitAndAddHeaderLine this.fHeader line this.fNormalizeKey =
      .ok headers) (fuel : Nat) (rest : Bytes) :
    parseHeadersLoop maxlinelen maxheaderlen (fuel + 1) this
        (.ofText (line ++ CR :: LF :: rest)) =
      if maxheaderlen < this.fParsedHeaderLength + line.length + 2 then
        some (.error (.requestSizeExceeded line maxheaderlen
          (this.fParsedHeaderLength + line.length + 2)), .ofText rest)
      else parseHeadersLoop maxlinelen maxheaderlen fuel
        ⟨headers, this.fParsedHeaderLength + line.length + 2, this.fNormalizeKey⟩
        (.ofText rest) := by
  have trimmed : trimENDL (line ++ [CR, LF]) = line := trimENDL_crlf line
  have long := length_pos_iff.mpr some_
  have all : (line ++ [CR, LF]).length = line.length + 2 := by
    rw [length_append]
    rfl
  rw [parseHeadersLoop, StreamUtils.getLineFromStream_line inside short]
  dsimp only
  rw [trimmed, all, if_neg (by omega), adds]
  rfl

/-- The empty line ends the header. -/
theorem parseHeadersLoop_end (this : MIMEHeader) {maxlinelen maxheaderlen : Nat}
    (short : 2 ≤ maxlinelen) (fuel : Nat) (rest : Bytes) :
    parseHeadersLoop maxlinelen maxheaderlen (fuel + 1) this
        (.ofText (CR :: LF :: rest)) =
      some (.ok { this with
        fParsedHeaderLength := this.fParsedHeaderLength + 2 }, .ofText rest) := by
  have reads : StreamUtils.getLineFromStream (.ofText (CR :: LF :: rest))
      maxlinelen = (.ok [CR, LF], .ofText rest) :=
    StreamUtils.getLineFromStream_line (not_mem_nil : LF ∉ []) short
  rw [parseHeadersLoop, reads]
  rfl

end MIMEHeader

end Coast
