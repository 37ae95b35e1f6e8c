import Coast.StdDataAccess.MIMEHeader

/-!
# Bodies of POST requests

`HTTPPostRequestBodyParser` reads a body of one part, or cuts a body of many
parts at the lines with their boundary and reads each part on its own.
-/

namespace Coast

open URLUtils HTTPConstants

structure HTTPPostRequestBodyParser where
  fHeader : MIMEHeader
  fContent : Anything
  fUnparsedContent : Bytes

namespace HTTPPostRequestBodyParser

def create (mainheader : MIMEHeader) : HTTPPostRequestBodyParser := ⟨mainheader, .null, []⟩

def decode (str : Bytes) (result : Anything) : Anything :=
  decodeAll (split (trimENDL str) (ch '&') result (ch '=') .eUntouched)

def readAll : Nat → TextStream → Bytes → Option (Bytes × TextStream)
  | 0, _, _ => none
  | fuel + 1, input, unparsed =>
    if input.good then
      let (more, input) := input.read 4096
      readAll fuel input (unparsed ++ more)
    else some (unparsed, input)

/-- The body as long as the header says, or up to the end. -/
def readContent (this : HTTPPostRequestBodyParser) (input : TextStream) :
    Option (Bytes × Bool) := do
  let contentLength := this.fHeader.getContentLength
  if 0 ≤ contentLength then
    let more := if 0 < contentLength then (input.read contentLength.toNat).1 else []
    let unparsed := this.fUnparsedContent ++ more
    some (unparsed, (unparsed.length : Int) = contentLength)
  else
    let (unparsed, input) ← readAll (input.rest.length + 2) input this.fUnparsedContent
    some (unparsed, input.eof)

/-- A body of one part; `importAny` imports an Anything from a stream, if that
succeeds and it is not Null. -/
def doParseBody (importAny : TextStream → Option Anything)
    (this : HTTPPostRequestBodyParser) (input : TextStream) :
    Option (Bool × HTTPPostRequestBodyParser) :=
  let contenttype := this.fHeader.lookup contentTypeSlotname
  if (contains contenttype.asString contentTypeAnything).isSome then
    match importAny input with
    | none => some (false, this)
    | some a => some (true, { this with fContent := this.fContent.append a })
  else do
    let (unparsed, readSuccess) ← this.readContent input
    let contentdisp := this.fHeader.lookup contentDispositionSlotname
    let formData := contentdisp.contains (lit "form-data")
    let name := (contentdisp.atKey (lit "NAME")).asString
    let filename := (contentdisp.atKey (lit "FILENAME")).asString
    let content :=
      if formData ∧ name ≠ [] ∧ filename ≠ [] then
        this.fContent.append (.charPtr unparsed)
      else if unparsed ≠ [] then decode unparsed this.fContent
      else this.fContent
    some (readSuccess, { this with fContent := content, fUnparsedContent := unparsed })

/-! ## Bodies of many parts -/

/-- What `DoReadToBoundary` does with a line. -/
inductive LineKind where
  | ends (endReached : Bool)
  | skipped
  | text
  deriving DecidableEq, Repr

/-- Dashes in front of the boundary or behind it tell what the line is. -/
def lineKind (bound line : Bytes) (bodyEmpty : Bool) : LineKind :=
  match contains line (lit "--"), contains line bound with
  | some nextDoubleDash, some boundPos =>
    if nextDoubleDash + 2 ≤ boundPos ∧ !bodyEmpty then
      match strChrFrom line (ch '-') (nextDoubleDash + bound.length + 2) with
      | some dash => .ends (line.getD (dash + 1) 0 = ch '-')
      | none => .ends false
    else if boundPos + bound.length ≤ nextDoubleDash then .ends true
    else if nextDoubleDash + 2 ≤ boundPos then .skipped
    else .text
  | _, _ => .text

structure ReadToBoundary where
  endReached : Bool
  body : Bytes
  fUnparsedContent : Bytes
  input : TextStream
  deriving DecidableEq, Repr

/-- Lines are put together again, up to one with the boundary. -/
def readToBoundaryLoop (bound : Bytes) :
    Nat → TextStream → Bytes → Bytes → Bool → Option ReadToBoundary
  | 0, _, _, _, _ => none
  | fuel + 1, input, body, unparsed, newLineFoundLastLine =>
    if !input.good then some ⟨false, body, unparsed, input⟩
    else
      let (line, input) := input.appendUntil LF 4096
      let (next, input) := input.peek
      let newLineFoundThisLine := decide (next = some LF)
      let input := if newLineFoundThisLine then input.get.2 else input
      let unparsed := unparsed ++ line ++ (if newLineFoundThisLine then [LF] else [])
      match lineKind bound line body.isEmpty with
      | .ends endReached =>
        some ⟨endReached, trimENDL body, unparsed, input⟩
      | .skipped =>
        readToBoundaryLoop bound fuel input body unparsed newLineFoundThisLine
      | .text =>
        let newLine := if newLineFoundLastLine && !body.isEmpty then [LF] else []
        readToBoundaryLoop bound fuel input (body ++ newLine ++ line) unparsed newLineFoundThisLine

def doReadToBoundary (this : HTTPPostRequestBodyParser) (input : TextStream)
    (bound body : Bytes) : Option ReadToBoundary :=
  readToBoundaryLoop bound (input.rest.length + 2) input body this.fUnparsedContent false

/-- What parsing comes to: whether it succeeded and the parser, or what is
thrown. -/
abbrev Parsed := Except MIMEException (Bool × HTTPPostRequestBodyParser)

/-- `GetHeaderInfo()` with a content type.  Of no header it is a copy that the
assignment does not change. -/
def withContentType : Anything → Anything
  | .null => .null
  | header =>
    if header.isDefined contentTypeSlotname then header
    else header.assign contentTypeSlotname (.charPtr contentTypeMultipart)

/-- The header and the body of a part are appended to the content. -/
def addPart (parsePart : HTTPPostRequestBodyParser → TextStream →
      Option Parsed) (this : HTTPPostRequestBodyParser) (body : Bytes) :
    Option (Except MIMEException HTTPPostRequestBodyParser) :=
  if body = [] then some (.ok this)
  else do
    let (parsed, innerpart) ← (MIMEHeader.create .eUpshift).parseHeaders (.ofText body)
      cDefaultMaxLineSz cDefaultMaxHeaderSz
    match parsed with
    | .error .streamNotGood => some (.ok this)
    | .error exception => some (.error exception)
    | .ok hinner =>
      let hinner := { hinner with fHeader := withContentType hinner.fHeader }
      match ← parsePart (create hinner) innerpart with
      | .error .streamNotGood => some (.ok this)
      | .error exception => some (.error exception)
      | .ok (_, part) =>
        let partInfo :=
          (Anything.null.assign (lit "header") hinner.fHeader).assign (lit "body") part.fContent
        some (.ok { this with fContent := this.fContent.append partInfo })

/-- Part after part, up to the closing boundary. -/
def parseMultiPartLoop (parsePart : HTTPPostRequestBodyParser → TextStream →
      Option Parsed) (bound : Bytes) :
    Nat → HTTPPostRequestBodyParser → TextStream → Bool → Option Parsed
  | 0, _, _, _ => none
  | fuel + 1, this, input, endReached =>
    if !endReached && input.good then do
      let read ← this.doReadToBoundary input bound []
      let this := { this with fUnparsedContent := read.fUnparsedContent }
      match ← addPart parsePart this read.body with
      | .error exception => some (.error exception)
      | .ok this =>
        parseMultiPartLoop parsePart bound fuel this read.input read.endReached
    else some (.ok (endReached, this))

def doParseMultiPart (parsePart : HTTPPostRequestBodyParser → TextStream → Option Parsed)
    (this : HTTPPostRequestBodyParser) (input : TextStream) (bound : Bytes) : Option Parsed :=
  parseMultiPartLoop parsePart bound (input.rest.length + 2) this input false

def parseWithin (importAny : TextStream → Option Anything) :
    Nat → HTTPPostRequestBodyParser → TextStream → Option Parsed
  | 0, _, _ => none
  | depth + 1, this, input =>
    if this.fHeader.isMultiPart then
      doParseMultiPart (parseWithin importAny depth) this input this.fHeader.getBoundary
    else (this.doParseBody importAny input).map .ok

def parse (importAny : TextStream → Option Anything)
    (this : HTTPPostRequestBodyParser) (input : TextStream) : Option Parsed :=
  parseWithin importAny (input.rest.length + 2) this input

end HTTPPostRequestBodyParser

/-!
## Lines with the boundary

A line with the boundary is told from the lines of a part by its dashes and by
the boundary, which is searched for as a C string.
-/

def dashes : Bytes := lit "--"

/-- A boundary that can be found behind dashes, in one line. -/
structure Boundary (bound : Bytes) : Prop where
  marked : ∃ c ∈ bound, c ≠ ch '-'
  plain : ∀ c ∈ bound, c ≠ 0 ∧ c ≠ CR ∧ c ≠ LF
  short : bound.length + 4 ≤ 4096

instance (bound : Bytes) : Decidable (Boundary bound) :=
  decidable_of_iff ((∃ c ∈ bound, c ≠ ch '-') ∧
      (∀ c ∈ bound, c ≠ 0 ∧ c ≠ CR ∧ c ≠ LF) ∧ bound.length + 4 ≤ 4096)
    ⟨fun h => ⟨h.1, h.2.1, h.2.2⟩, fun h => ⟨h.marked, h.plain, h.short⟩⟩

namespace StringRep

theorem infix_of_strstr {pattern text : Bytes} {pos : Nat}
    (found : strstr pattern text = some pos) : pattern <:+: text := by
  induction text generalizing pos with
  | nil =>
    by_cases empty : pattern = []
    · subst empty
      exact List.infix_rfl
    · have nowhere : strstr pattern [] = none := if_neg empty
      exact absurd (nowhere.symm.trans found) nofun
  | cons c text ih =>
    unfold strstr at found
    split at found
    · rename_i here
      exact (List.isPrefixOf_iff_prefix.mp here).isInfix
    · rw [Option.map_eq_some_iff] at found
      rcases found with ⟨rest, later, -⟩
      exact (ih later).trans (List.suffix_cons c text).isInfix

theorem strstr_prefix {pattern : Bytes} (some' : pattern ≠ [])
    (rest : Bytes) : strstr pattern (pattern ++ rest) = some 0 := by
  cases pattern with
  | nil => exact absurd rfl some'
  | cons c pattern =>
    have here : (c :: pattern).isPrefixOf (c :: (pattern ++ rest)) = true :=
      List.isPrefixOf_iff_prefix.mpr (List.prefix_append (c :: pattern) rest)
    rw [List.cons_append, strstr, if_pos here]

theorem strstr_cons {pattern text : Bytes} {c : Byte} (differs : ¬ pattern <+: c :: text) :
    strstr pattern (c :: text) = (strstr pattern text).map (· + 1) := by
  have notHere : ¬ pattern.isPrefixOf (c :: text) = true := fun here =>
    differs (List.isPrefixOf_iff_prefix.mp here)
  rw [strstr, if_neg notHere]

end StringRep

theorem eq_of_prefix_replicate {c : Byte} {k : Nat} {text rest : Bytes}
    (positive : 0 < k) (starts : text <+: List.replicate k c ++ (text ++ rest)) :
    ∀ d ∈ text, d = c := by
  have at' : ∀ i, ∀ inside : i < text.length, text[i] = c := by
    intro i
    -- a position is `k` behind one that is known, or among the copies
    induction i using Nat.strong_induction_on with
    | _ i ih =>
      intro inside
      have same := (List.prefix_iff_getElem?.mp starts) i inside
      by_cases front : i < k
      · rw [List.getElem?_append_left (by rwa [List.length_replicate]),
          List.getElem?_replicate, if_pos front] at same
        exact (Option.some.inj same).symm
      · have before : i - k < text.length := by omega
        rw [List.getElem?_append_right (by
            rw [List.length_replicate]
            omega), List.length_replicate,
          List.getElem?_append_left before,
          List.getElem?_eq_getElem before] at same
        have known := ih (i - k) (by omega) before
        rw [← Option.some.inj same]
        exact known
  intro d member
  rcases List.getElem_of_mem member with ⟨i, inside, isD⟩
  rw [← isD]
  exact at' i inside

namespace Boundary

variable {bound : Bytes}

section

variable (boundary : Boundary bound)
include boundary

theorem ne_nil : bound ≠ [] := by
  rcases boundary.marked with ⟨c, member, -⟩
  exact List.ne_nil_of_mem member

theorem nulFree : NulFree bound := fun member =>
  (boundary.plain 0 member).1 rfl

theorem not_prefix {k : Nat} (positive : 0 < k) (rest : Bytes) :
    ¬ bound <+: List.replicate k (ch '-') ++ (bound ++ rest) := by
  intro starts
  rcases boundary.marked with ⟨c, member, other⟩
  exact other (eq_of_prefix_replicate positive starts c member)

theorem contains_eq_none {line : Bytes}
    (absent : ¬ bound <:+: line) : contains line bound = none := by
  unfold contains
  rw [cstr_of_nulFree boundary.nulFree]
  cases found : StringRep.strstr bound (cstr line) with
  | none => rfl
  | some pos =>
    have front : cstr line <+: line := List.takeWhile_prefix _
    exact absurd ((StringRep.infix_of_strstr found).trans front.isInfix) absent

theorem contains_line (tail : Bytes) : contains (dashes ++ (bound ++ tail)) bound = some 2 := by
  have free : NulFree dashes := by
    unfold NulFree
    decide
  have first : ¬ bound <+: ch '-' :: ch '-' :: (bound ++ cstr tail) :=
    boundary.not_prefix (by decide : 0 < 2) (cstr tail)
  have second : ¬ bound <+: ch '-' :: (bound ++ cstr tail) :=
    boundary.not_prefix (by decide : 0 < 1) (cstr tail)
  unfold contains
  rw [cstr_of_nulFree boundary.nulFree, cstr_append_of_nulFree free,
    cstr_append_of_nulFree boundary.nulFree]
  show StringRep.strstr bound (ch '-' :: (ch '-' :: (bound ++ cstr tail))) = some 2
  rw [StringRep.strstr_cons first, StringRep.strstr_cons second,
    StringRep.strstr_prefix boundary.ne_nil]
  rfl

end

theorem contains_dashes (rest : Bytes) : contains (dashes ++ rest) dashes = some 0 := by
  have free : NulFree dashes := by
    unfold NulFree
    decide
  unfold contains
  rw [cstr_of_nulFree free, cstr_append_of_nulFree free]
  exact StringRep.strstr_prefix (by decide) _

end Boundary

namespace HTTPPostRequestBodyParser

variable {bound : Bytes}

variable (boundary : Boundary bound)
include boundary

theorem lineKind_text {line : Bytes} (absent : ¬ bound <:+: line) (bodyEmpty : Bool) :
    lineKind bound line bodyEmpty = .text := by
  unfold lineKind
  rw [boundary.contains_eq_none absent]
  cases contains line (lit "--") with
  | none => rfl
  | some nextDoubleDash => rfl

theorem lineKind_opening (tail : Bytes) :
    lineKind bound (dashes ++ (bound ++ tail)) true = .skipped := by
  have long : ¬ 2 + bound.length ≤ 0 := by omega
  unfold lineKind
  rw [boundary.contains_line, show lit "--" = dashes from rfl,
    Boundary.contains_dashes]
  simp [long]

/-- Behind a body, dashes and the boundary end the part. -/
theorem lineKind_delimiter (tail : Bytes) :
    lineKind bound (dashes ++ (bound ++ tail)) false = .ends (match strChr tail (ch '-') with
        | some dash => decide (tail.getD (dash + 1) 0 = ch '-')
        | none => false) := by
  have front : (dashes ++ (bound ++ tail)).drop (bound.length + 2) = tail := by
    rw [← List.append_assoc]
    apply List.drop_left'
    rw [List.length_append, Nat.add_comm]
    rfl
  have both : 0 + 2 ≤ 2 ∧ (!false) = true := ⟨Nat.le_refl 2, rfl⟩
  unfold lineKind
  rw [boundary.contains_line, show lit "--" = dashes from rfl,
    Boundary.contains_dashes]
  dsimp only
  rw [if_pos both, Nat.zero_add, strChrFrom, front]
  cases found : strChr tail (ch '-') with
  | none => rfl
  | some dash =>
    have same : tail.getD (dash + 1) 0 = (dashes ++ (bound ++ tail)).getD
        (bound.length + 2 + dash + 1) 0 := by
      rw [List.getD_eq_getElem?_getD, List.getD_eq_getElem?_getD]
      nth_rewrite 1 [← front]
      rw [List.getElem?_drop]
      rfl
    show LineKind.ends (decide ((dashes ++ (bound ++ tail)).getD
      (bound.length + 2 + dash + 1) 0 = ch '-')) = _
    rw [← same]

end HTTPPostRequestBodyParser

end Coast
