import Coast.StdDataAccess.MultiPart

/-!
# Messages of file parts

Parsing a message gives the parts it was made of.
-/

namespace Coast

open URLUtils HTTPConstants List

/-- The parts with the boundary between them and behind them.  Browsers also
send a line with the boundary in front. -/
def message (opened : Bool) (bound : Bytes) (parts : List FilePart) : Bytes :=
  (if opened then dashes ++ bound ++ crlf else []) ++
    List.intercalate (crlf ++ dashes ++ bound ++ crlf) (parts.map FilePart.text) ++
    crlf ++ dashes ++ bound ++ dashes

example : message true (lit "x") [⟨lit "a", lit "b", none, lit "1"⟩] = lit "--x" ++ crlf ++
      lit "Content-Disposition: form-data; name=\"a\"; filename=\"b\"" ++
      crlf ++ crlf ++ lit "1" ++ crlf ++ lit "--x--" := by
  decide

theorem FilePart.text_begins (part : FilePart) : part.text ≠ [] ∧ part.text.head? ≠ some LF :=
  ⟨cons_ne_nil _ _, fun same => absurd (Option.some.inj same) (by decide)⟩

namespace HTTPPostRequestBodyParser

variable {bound : Bytes}

theorem doReadToBoundary_opened (boundary : Boundary bound)
    (this : HTTPPostRequestBodyParser) (opened : Bool) (rest : Bytes) :
    ∃ fuel unparsed newLineFound, rest.length + 2 ≤ fuel ∧ this.doReadToBoundary (.ofText
          ((if opened then dashes ++ bound ++ crlf else []) ++ rest)) bound [] =
        readToBoundaryLoop bound fuel (.ofText rest) [] unparsed newLineFound := by
  cases opened with
  | false =>
    exact ⟨rest.length + 2, this.fUnparsedContent, false, Nat.le_refl _, rfl⟩
  | true =>
    have long : rest.length + 1 ≤ (dashes ++ bound ++ crlf ++ rest).length := by
      simp [dashes, crlf, lit]
      omega
    rcases readToBoundaryLoop_opening boundary rest this.fUnparsedContent
      ((dashes ++ bound ++ crlf ++ rest).length + 1) false with
      ⟨unparsed, reached⟩
    exact ⟨_, unparsed, true, by omega, reached⟩

theorem message_cons (opened : Bool) (bound : Bytes) (part next : FilePart)
    (parts : List FilePart) :
    message opened bound (part :: next :: parts) =
      (if opened then dashes ++ bound ++ crlf else []) ++
        (part.text ++ crlf ++ dashes ++ bound ++ crlf ++ message false bound (next :: parts)) := by
  simp [message, List.intercalate]

theorem message_single (opened : Bool) (bound : Bytes) (part : FilePart) :
    message opened bound [part] = (if opened then dashes ++ bound ++ crlf else []) ++
        (part.text ++ crlf ++ dashes ++ bound ++ dashes) := by
  simp [message, List.intercalate]

theorem length_le_message (opened : Bool) (bound : Bytes)
    {parts : List FilePart} (some' : parts ≠ []) :
    parts.length ≤ (message opened bound parts).length := by
  induction parts generalizing opened with
  | nil => exact absurd rfl some'
  | cons part parts ih =>
    cases parts with
    | nil =>
      have two : crlf.length = 2 := rfl
      rw [message_single]
      simp only [length_append, two, length_singleton]
      omega
    | cons next parts =>
      have later := ih false (cons_ne_nil next parts)
      have two : crlf.length = 2 := rfl
      rw [message_cons]
      simp only [length_append, two, length_cons] at later ⊢
      omega

/-- The loop takes a message apart, part by part. -/
theorem parseMultiPartLoop_message (boundary : Boundary bound)
    (importAny : TextStream → Option Anything) (depth : Nat)
    (parts : List FilePart) (some' : parts ≠ []) (readable : ∀ part ∈ parts, part.Readable)
    (absent : ∀ part ∈ parts, ¬ bound <:+: part.text) (opened : Bool)
    (fuel : Nat) (enough : parts.length < fuel) (this : HTTPPostRequestBodyParser) :
    ∃ after, parseMultiPartLoop (parseWithin importAny (depth + 1)) bound fuel
        this (.ofText (message opened bound parts)) false =
      some (.ok (true, after)) ∧
    after.fContent = parts.foldl (fun content part => content.append part.info) this.fContent := by
  induction parts generalizing opened fuel this with
  | nil => exact absurd rfl some'
  | cons part parts ih =>
    rw [length_cons] at enough
    obtain ⟨m, isFuel⟩ : ∃ m, fuel = m + 2 := ⟨fuel - 2, by omega⟩
    have begins := part.text_begins
    have readable' := readable part mem_cons_self
    have absent' := absent part mem_cons_self
    cases parts with
    | nil =>
      rcases doReadToBoundary_opened boundary this opened
        (part.text ++ crlf ++ dashes ++ bound ++ dashes) with
        ⟨left, unparsed, newLineFound, enough', opens⟩
      have long : part.text.length + 3 ≤ left := by
        simp [crlf] at enough'
        omega
      rcases readToBoundaryLoop_last boundary unparsed left newLineFound
        long begins.1 begins.2 absent' with ⟨unparsed', input, reads⟩
      refine ⟨{ this with
        fContent := this.fContent.append part.info
        fUnparsedContent := unparsed' }, ?_, rfl⟩
      rw [isFuel, message_single, parseMultiPartLoop]
      simp only [Bool.not_false, TextStream.good_ofText, Bool.and_true, if_true, opens, reads,
        Option.bind_eq_bind, Option.bind_some, addPart_text readable']
      rw [parseMultiPartLoop]
      rfl
    | cons next parts =>
      rcases doReadToBoundary_opened boundary this opened
        (part.text ++ crlf ++ dashes ++ bound ++ crlf ++ message false bound (next :: parts)) with
        ⟨left, unparsed, newLineFound, enough', opens⟩
      have long : part.text.length + 3 ≤ left := by
        simp [crlf] at enough'
        omega
      rcases readToBoundaryLoop_next boundary
        (message false bound (next :: parts)) unparsed left newLineFound
        long begins.1 begins.2 absent' with ⟨unparsed', reads⟩
      rcases ih (cons_ne_nil next parts)
        (fun other member => readable other (.tail part member))
        (fun other member => absent other (.tail part member)) false (m + 1) (by omega)
        { this with
          fContent := this.fContent.append part.info
          fUnparsedContent := unparsed' } with ⟨after, parses, content⟩
      refine ⟨after, ?_, content⟩
      rw [isFuel, message_cons, parseMultiPartLoop]
      simp only [Bool.not_false, TextStream.good_ofText, Bool.and_true, if_true, opens, reads,
        Option.bind_eq_bind, Option.bind_some, addPart_text readable']
      exact parses

theorem foldl_append (parts : List FilePart) (slots : List (Bytes × Anything)) :
    parts.foldl (fun content part => content.append part.info)
        (Anything.array slots) =
      .array (slots ++ parts.map fun part => ([], part.info)) := by
  induction parts generalizing slots with
  | nil =>
    rw [map_nil, append_nil]
    rfl
  | cons part parts ih =>
    rw [foldl_cons, map_cons, append_cons, ← ih]
    rfl

/-- Parsing the message of some parts succeeds, and the content is these
parts. -/
theorem parse_message {bound : Bytes} {parts : List FilePart} {mainheader : MIMEHeader}
    (importAny : TextStream → Option Anything) (opened : Bool)
    (named : mainheader.getBoundary = bound) (boundary : Boundary bound) (some' : parts ≠ [])
    (readable : ∀ part ∈ parts, part.Readable) (absent : ∀ part ∈ parts, ¬ bound <:+: part.text) :
    ∃ after, (create mainheader).parse importAny
        (.ofText (message opened bound parts)) = some (.ok (true, after)) ∧
      after.fContent = .array (parts.map fun part => ([], part.info)) := by
  have long := length_le_message opened bound some'
  have multi : mainheader.isMultiPart = true := by
    unfold MIMEHeader.isMultiPart
    rw [named]
    exact decide_eq_true (length_pos_iff.mpr boundary.ne_nil)
  rcases parseMultiPartLoop_message boundary importAny
    ((message opened bound parts).length) parts some' readable absent opened
    ((message opened bound parts).length + 2) (by omega) (create mainheader)
    with ⟨after, parses, content⟩
  refine ⟨after, ?_, ?_⟩
  · show parseWithin importAny ((message opened bound parts).length + 2)
      (create mainheader) (.ofText (message opened bound parts)) = _
    rw [parseWithin]
    show (if mainheader.isMultiPart then doParseMultiPart _ _ _ mainheader.getBoundary else _) = _
    rw [if_pos multi, named]
    exact parses
  · rw [content]
    cases parts with
    | nil => exact absurd rfl some'
    | cons part parts => exact foldl_append parts [([], part.info)]

/-- Two parts, with an empty body and one that ends with a line end. -/
theorem parse_message_two : ∃ after,
    (create ⟨.array [(boundarySlotname, .charPtr (lit "980"))], 0, .eUpshift⟩).parse
        (fun _ => none) (.ofText (message true (lit "980")
          [⟨lit "up", lit "a.txt", none, []⟩, ⟨lit "f", lit "b", some (lit "text/plain"),
              0 :: lit "--98" ++ crlf⟩])) = some (.ok (true, after)) ∧
      after.fContent = .array
        ([⟨lit "up", lit "a.txt", none, []⟩, ⟨lit "f", lit "b", some (lit "text/plain"),
            0 :: lit "--98" ++ crlf⟩].map
              fun part : FilePart => ([], part.info)) := by
  apply parse_message
  · rfl
  · decide
  · exact cons_ne_nil _ _
  · intro part member
    rcases mem_pair.mp member with isFirst | isSecond
    · rw [isFirst]
      exact ⟨⟨by decide, by decide, fun t isType => by cases isType⟩,
        by decide, fun t isType => by cases isType⟩
    · rw [isSecond]
      refine ⟨⟨by decide, by decide, ?_⟩, by decide, ?_⟩
      · intro t isType
        cases isType
        decide
      · intro t isType
        cases isType
        decide
  · decide +kernel

def thrown : Option Parsed → Option MIMEException
  | some (.error exception) => some exception
  | _ => none

theorem eq_of_thrown {parsed : Option Parsed} {exception : MIMEException}
    (throws : thrown parsed = some exception) :
    parsed = some (.error exception) := by
  cases parsed with
  | none => cases throws
  | some parsed =>
    cases parsed with
    | error other =>
      cases throws
      rfl
    | ok result => cases throws

private def partsInPart : FilePart :=
  ⟨lit "n", lit "f", some (lit "multipart/mixed; boundary=x"), lit "abc"⟩

/-- A part that names a boundary of its own is taken apart once more. -/
theorem not_parse_message :
    partsInPart.Simple ∧ ¬ lit "q" <:+: partsInPart.text ∧
      (create ⟨.array [(boundarySlotname, .charPtr (lit "q"))], 0, .eUpshift⟩).parse
          (fun _ => none) (.ofText (message false (lit "q") [partsInPart])) =
        some (.error (.invalidLine (lit "abc"))) := by
  refine ⟨⟨by decide, by decide, ?_⟩, by decide +kernel, eq_of_thrown ?_⟩
  · intro t isType
    cases isType
    decide
  · decide +kernel

end HTTPPostRequestBodyParser

end Coast
