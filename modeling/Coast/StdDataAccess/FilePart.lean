import Coast.StdDataAccess.HTTPPostRequestBodyParser

/-!
# Parts with a file

A part of a multipart body has a `Content-Disposition` with a name and a file
name, and may have a `Content-Type`.
-/

namespace Coast

open URLUtils HTTPConstants List Option

def crlf : Bytes := [CR, LF]

def quoted (s : Bytes) : Bytes := ch '"' :: (s ++ [ch '"'])

structure FilePart where
  name : Bytes
  filename : Bytes
  contentType : Option Bytes
  body : Bytes

def SimpleName (s : Bytes) : Prop := s ≠ [] ∧ ∀ c ∈ s, c ≠ 0 ∧ c ≠ LF ∧ c ≠ ch ';'

instance (s : Bytes) : Decidable (SimpleName s) := inferInstanceAs (Decidable (_ ∧ _))

/-- A content type that is a text of one line, and not the one of an
Anything. -/
def PlainType (contentType : Bytes) : Prop :=
  (∀ c ∈ contentType, c ≠ 0 ∧ c ≠ LF) ∧ contentType.head? ≠ some (ch ' ') ∧
    contains contentType contentTypeAnything = none

instance (contentType : Bytes) : Decidable (PlainType contentType) :=
  inferInstanceAs (Decidable (_ ∧ _))

namespace FilePart

def disposition (part : FilePart) : Bytes :=
  ch ' ' :: lit "form-data" ++ ch ';' :: (ch ' ' :: lit "name" ++ ch '=' :: quoted part.name) ++
    ch ';' :: (ch ' ' :: lit "filename" ++ ch '=' :: quoted part.filename)

def lines (part : FilePart) : List Bytes :=
  (lit "Content-Disposition" ++ ch ':' :: part.disposition) ::
    (part.contentType.map fun contentType =>
      lit "Content-Type" ++ ch ':' :: ch ' ' :: contentType).toList

def text (part : FilePart) : Bytes := part.lines.flatMap (· ++ crlf) ++ crlf ++ part.body

example : (FilePart.mk (lit "up") (lit "a.txt") (some (lit "text/plain"))
    (lit "hello")).text = lit "Content-Disposition: form-data; name=\"up\"; filename=\"a.txt\"" ++
        crlf ++ lit "Content-Type: text/plain" ++ crlf ++ crlf ++
        lit "hello" := by
  decide

structure Simple (part : FilePart) : Prop where
  name : SimpleName part.name
  filename : SimpleName part.filename
  contentType : ∀ t ∈ part.contentType, PlainType t

/-- The header lines have the length that is read, and the content type does
not name a boundary of parts in the part. -/
structure Readable (part : FilePart) : Prop extends part.Simple where
  short : ∀ line ∈ part.lines, line.length + 2 ≤ cDefaultMaxLineSz
  single : ∀ t ∈ part.contentType, MIMEHeader.multipartBoundary t = none

def dispositionInfo (part : FilePart) : Anything :=
  .array [([], .charPtr (lit "form-data")), (lit "NAME", .charPtr part.name),
    (lit "FILENAME", .charPtr part.filename)]

def header (part : FilePart) : Anything :=
  .array [(contentDispositionSlotname, part.dispositionInfo),
    (contentTypeSlotname, .charPtr (part.contentType.getD contentTypeMultipart))]

def info (part : FilePart) : Anything :=
  .array [(lit "header", part.header), (lit "body", .array [([], .charPtr part.body)])]

end FilePart

namespace FilePart

open MIMEHeader

def field (key value : Bytes) : Bytes := ch ' ' :: key ++ ch '=' :: quoted value

theorem not_mem_field {c : Byte} {key value : Bytes} (other : c ≠ ch ' ' ∧ c ≠ ch '=' ∧ c ≠ ch '"')
    (notKey : c ∉ key) (notValue : c ∉ value) : c ∉ field key value := by
  intro member
  rcases mem_append.mp member with inKey | behind
  · rcases mem_cons.mp inKey with isBlank | inKey
    · exact other.1 isBlank
    · exact notKey inKey
  · rcases mem_cons.mp behind with isEqual | inQuotes
    · exact other.2.1 isEqual
    · rcases mem_cons.mp inQuotes with isQuote | inside
      · exact other.2.2 isQuote
      · rcases mem_append.mp inside with inValue | isQuote
        · exact notValue inValue
        · exact other.2.2 (mem_singleton.mp isQuote)

theorem disposition_eq (part : FilePart) :
    part.disposition = ch ' ' :: (lit "form-data" ++ ch ';' :: field (lit "name") part.name ++
      ch ';' :: field (lit "filename") part.filename) := rfl

variable {part : FilePart}

theorem not_mem_disposition {c : Byte} (other : c ≠ ch ' ' ∧ c ≠ ch '=' ∧ c ≠ ch '"')
    (semicolon : c ≠ ch ';') (literals : c ∉ lit "form-data" ∧ c ∉ lit "name" ∧ c ∉ lit "filename")
    (notName : c ∉ part.name) (notFilename : c ∉ part.filename) :
    c ∉ part.disposition := by
  rw [disposition_eq]
  intro member
  rcases mem_cons.mp member with isBlank | inFields
  · exact other.1 isBlank
  rcases mem_append.mp inFields with inFront | inLast
  · rcases mem_append.mp inFront with inFirst | inSecond
    · exact literals.1 inFirst
    · rcases mem_cons.mp inSecond with isSemicolon | inSecond
      · exact semicolon isSemicolon
      · exact not_mem_field other literals.2.1 notName inSecond
  · rcases mem_cons.mp inLast with isSemicolon | inThird
    · exact semicolon isSemicolon
    · exact not_mem_field other literals.2.2 notFilename inThird

theorem SimpleName.not_mem {s : Bytes} (simple : SimpleName s) : 0 ∉ s ∧ LF ∉ s ∧ ch ';' ∉ s :=
  ⟨fun member => (simple.2 0 member).1 rfl, fun member => (simple.2 LF member).2.1 rfl,
    fun member => (simple.2 (ch ';') member).2.2 rfl⟩

theorem tokens_disposition (simple : part.Simple) :
    stringTokens (ch ';') part.disposition.tail =
      [lit "form-data", field (lit "name") part.name, field (lit "filename") part.filename] := by
  have name := SimpleName.not_mem simple.name
  have filename := SimpleName.not_mem simple.filename
  have nulFree : NulFree part.disposition :=
    not_mem_disposition (by decide) (by decide) (by decide) name.1 filename.1
  have tailFree : NulFree part.disposition.tail := fun member =>
    nulFree (mem_of_mem_tail member)
  have second : ch ';' ∉ field (lit "name") part.name :=
    not_mem_field (by decide) (by decide) name.2.2
  have third : ch ';' ∉ field (lit "filename") part.filename :=
    not_mem_field (by decide) (by decide) filename.2.2
  have first : ch ';' ∉ lit "form-data" := by decide
  unfold stringTokens
  rw [cstr_of_nulFree tailFree, disposition_eq, tail_cons,
    if_neg (by simp [lit]), tokenize_append, tokenize_append,
    tokenize_single first, tokenize_single second, tokenize_single third]
  rfl

theorem split_disposition (simple : part.Simple) :
    split part.disposition.tail (ch ';') .null (ch '=') .eUpshift = part.dispositionInfo := by
  have name := SimpleName.not_mem simple.name
  have filename := SimpleName.not_mem simple.filename
  have first : pair (trimBlanks (lit "form-data")) (ch '=') .null .eUpshift =
      .array [([], .charPtr (lit "form-data"))] :=
    pair_single (by decide) (by decide) (by decide) .eUpshift
  have equals : ch '=' ≠ 0 := by decide
  have second : ∀ any : Anything, any.isDefined (lit "NAME") = false →
      pair (trimBlanks (field (lit "name") part.name)) (ch '=') any
        .eUpshift = any.assign (lit "NAME") (.charPtr part.name) := by
    have named : lit "name" ≠ [] := by decide
    have inside : ch '=' ∉ lit "name" := by decide
    have free : NulFree (lit "name") := by decide
    exact fun any new => pair_quoted named inside free equals name.1 new
  have third : ∀ any : Anything, any.isDefined (lit "FILENAME") = false →
      pair (trimBlanks (field (lit "filename") part.filename)) (ch '=') any
        .eUpshift = any.assign (lit "FILENAME") (.charPtr part.filename) := by
    have named : lit "filename" ≠ [] := by decide
    have inside : ch '=' ∉ lit "filename" := by decide
    have free : NulFree (lit "filename") := by decide
    exact fun any new => pair_quoted named inside free equals filename.1 new
  unfold split
  rw [tokens_disposition simple, foldl_cons, foldl_cons,
    foldl_cons, foldl_nil, first, second _ rfl, third _ rfl]
  rfl

theorem add_disposition (simple : part.Simple) :
    splitAndAddHeaderLine .null
        (lit "Content-Disposition" ++ ch ':' :: part.disposition) .eUpshift =
      .ok (.array [(contentDispositionSlotname, part.dispositionInfo)]) := by
  have named : lit "Content-Disposition" ≠ [] := by decide
  have inside : ch ':' ∉ lit "Content-Disposition" := by decide
  have some' : part.disposition ≠ [] := cons_ne_nil _ _
  have upper : shiftedHeaderKey (lit "Content-Disposition") .eUpshift =
      contentDispositionSlotname := by decide
  have trimmed : trimBlanks part.disposition = part.disposition.tail := rfl
  have single : isMultiValue contentDispositionSlotname = false := by decide
  have other : ¬ contentDispositionSlotname =
      shiftedHeaderKey contentTypeSlotname .eUpshift := by decide
  have plain : cstr contentDispositionSlotname = contentDispositionSlotname := by decide
  have unset : Anything.null.atKey contentDispositionSlotname = .null := rfl
  rw [splitAndAddHeaderLine_field .null part.disposition .eUpshift named inside some', upper,
    if_neg other, trimmed, storeKeyValue, single, if_neg Bool.false_ne_true, if_pos plain, unset, split_disposition simple]
  rfl

theorem add_contentType {disposition : Anything} {t : Bytes}
    (plain : PlainType t) (single : multipartBoundary t = none) :
    splitAndAddHeaderLine (.array [(contentDispositionSlotname, disposition)])
        (lit "Content-Type" ++ ch ':' :: ch ' ' :: t) .eUpshift =
      .ok (.array [(contentDispositionSlotname, disposition),
        (contentTypeSlotname, .charPtr t)]) := by
  have named : lit "Content-Type" ≠ [] := by decide
  have inside : ch ':' ∉ lit "Content-Type" := by decide
  have some' : ch ' ' :: t ≠ [] := cons_ne_nil _ _
  have upper : shiftedHeaderKey (lit "Content-Type") .eUpshift = contentTypeSlotname := by decide
  have tagged : shiftedHeaderKey contentTypeSlotname .eUpshift = contentTypeSlotname := by decide
  have trimmed : trimBlanks (ch ' ' :: t) = t := by
    show t.dropWhile (· = ch ' ') = t
    cases t with
    | nil => rfl
    | cons c t =>
      have other : ¬ c = ch ' ' := fun same =>
        plain.2.1 (congrArg some same)
      rw [dropWhile_cons, if_neg (by rwa [decide_eq_true_eq])]
  have oneValue : isMultiValue contentTypeSlotname = false := by decide
  have other : ¬ cstr contentTypeSlotname = contentDispositionSlotname := by
    decide
  have key : contentTypeSlotname ≠ [] := by decide
  have nulFree : NulFree t := fun member => (plain.1 0 member).1 rfl
  have new : (Anything.array [(contentDispositionSlotname, disposition)]
      ).isDefined contentTypeSlotname = false := rfl
  rw [splitAndAddHeaderLine_field _ (ch ' ' :: t) .eUpshift named inside some', upper, tagged,
    if_pos rfl, trimmed, checkMultipartBoundary, single, storeKeyValue, oneValue, if_neg Bool.false_ne_true,
    if_neg other, appendValueTo_new key nulFree new]
  rfl

def stored (part : FilePart) : Anything :=
  .array ((contentDispositionSlotname, part.dispositionInfo) ::
    (part.contentType.map fun t => (contentTypeSlotname, .charPtr t)).toList)

theorem withContentType_stored (part : FilePart) :
    HTTPPostRequestBodyParser.withContentType part.stored = part.header := by
  cases part with
  | mk name filename contentType body =>
    cases contentType with
    | none => rfl
    | some t => rfl

theorem not_mem_line {c : Byte} {name value : Bytes} (inName : c ∉ name) (isColon : c ≠ ch ':')
    (inValue : c ∉ value) : c ∉ name ++ ch ':' :: value := by
  rw [mem_append, mem_cons]
  rintro (member | same | member)
  · exact inName member
  · exact isColon same
  · exact inValue member

theorem not_mem_firstLine (simple : part.Simple) :
    LF ∉ lit "Content-Disposition" ++ ch ':' :: part.disposition := by
  have name := SimpleName.not_mem simple.name
  have filename := SimpleName.not_mem simple.filename
  have behind : LF ∉ part.disposition :=
    not_mem_disposition (by decide) (by decide) (by decide) name.2.1 filename.2.1
  exact not_mem_line (by decide) (by decide) behind

/-- The lines of a part are read into its header. -/
theorem parseHeaders_text (readable : part.Readable) :
    ∃ length, (MIMEHeader.create .eUpshift).parseHeaders (.ofText part.text)
        cDefaultMaxLineSz cDefaultMaxHeaderSz =
      some (.ok ⟨part.stored, length, .eUpshift⟩, .ofText part.body) := by
  have simple := readable.toSimple
  have first := not_mem_firstLine simple
  have short := readable.short (lit "Content-Disposition" ++ ch ':' :: part.disposition)
    mem_cons_self
  have adds := add_disposition simple
  obtain ⟨line, isLine⟩ : ∃ line, line =
      lit "Content-Disposition" ++ ch ':' :: part.disposition := ⟨_, rfl⟩
  have some' : line ≠ [] := by
    rw [isLine]
    exact cons_ne_nil _ _
  rw [← isLine] at first short adds
  have limit : cDefaultMaxLineSz = 1024 := rfl
  have limit' : cDefaultMaxHeaderSz = 4096 := rfl
  have total : ¬ cDefaultMaxHeaderSz <
      (create .eUpshift).fParsedHeaderLength + line.length + 2 := by
    show ¬ 4096 < 0 + line.length + 2
    omega
  unfold parseHeaders
  cases type : part.contentType with
  | none =>
    have isText : part.text = line ++ CR :: LF :: CR :: LF :: part.body := by
      unfold text lines
      rw [type, ← isLine]
      simp [crlf]
    have long : 1 ≤ part.text.length := by
      rw [isText, length_append, length_cons]
      omega
    obtain ⟨fuel, isFuel⟩ : ∃ fuel, part.text.length + 1 = fuel + 2 :=
      ⟨part.text.length - 1, by omega⟩
    refine ⟨line.length + 4, ?_⟩
    show parseHeadersLoop _ _ (part.text.length + 1) _ (.ofText part.text) = _
    rw [isFuel, isText, parseHeadersLoop_line first some' short adds, if_neg total,
      parseHeadersLoop_end _ (by decide), stored, type]
    simp [create]
  | some t =>
    have plain := simple.contentType t (mem_def.mpr type)
    have adds' : splitAndAddHeaderLine
        (.array [(contentDispositionSlotname, part.dispositionInfo)])
        (lit "Content-Type" ++ ch ':' :: ch ' ' :: t) .eUpshift = _ :=
      add_contentType plain (readable.single t (mem_def.mpr type))
    have short' := readable.short
      (lit "Content-Type" ++ ch ':' :: ch ' ' :: t) (by
        unfold lines
        rw [type]
        exact mem_cons_of_mem _ mem_cons_self)
    have behind : LF ∉ ch ' ' :: t :=
      not_mem_cons_of_ne_of_not_mem (by decide) fun member => (plain.1 LF member).2 rfl
    have second : LF ∉ lit "Content-Type" ++ ch ':' :: ch ' ' :: t :=
      not_mem_line (by decide) (by decide) behind
    obtain ⟨other, isOther⟩ : ∃ other, other =
        lit "Content-Type" ++ ch ':' :: ch ' ' :: t := ⟨_, rfl⟩
    have some'' : other ≠ [] := by
      rw [isOther]
      exact cons_ne_nil _ _
    rw [← isOther] at adds' short' second
    have total' : ¬ cDefaultMaxHeaderSz <
        (create .eUpshift).fParsedHeaderLength + line.length + 2 + other.length + 2 := by
      show ¬ 4096 < 0 + line.length + 2 + other.length + 2
      omega
    have isText : part.text = line ++ CR :: LF :: (other ++ CR :: LF :: CR :: LF :: part.body) := by
      unfold text lines
      rw [type, ← isLine, map_some, ← isOther]
      simp [crlf]
    have long : 2 ≤ part.text.length := by
      rw [isText, length_append, length_cons, length_cons]
      omega
    obtain ⟨fuel, isFuel⟩ : ∃ fuel, part.text.length + 1 = fuel + 3 :=
      ⟨part.text.length - 2, by omega⟩
    refine ⟨line.length + other.length + 6, ?_⟩
    show parseHeadersLoop _ _ (part.text.length + 1) _ (.ofText part.text) = _
    rw [isFuel, isText, parseHeadersLoop_line first some' short adds, if_neg total,
      parseHeadersLoop_line second some'' short' adds', if_neg total',
      parseHeadersLoop_end _ (by decide), stored, type]
    simp [create]
    omega

end FilePart

/-!
## Adding a part to the content

The body behind the header of a part is stored as it is.
-/

namespace HTTPPostRequestBodyParser

theorem readAll_ofText {text : Bytes} (unparsed : Bytes) {fuel : Nat}
    (enough : text.length + 1 < fuel) :
    readAll fuel (.ofText text) unparsed = some (unparsed ++ text, ⟨[], true, true⟩) := by
  induction fuel generalizing text unparsed with
  | zero => omega
  | succ fuel ih =>
    rw [readAll, if_pos (TextStream.good_ofText text)]
    by_cases short : text.length < 4096
    · have reads : (TextStream.ofText text).read 4096 = (text, ⟨[], true, true⟩) := by
        unfold TextStream.read
        rw [if_pos (TextStream.good_ofText text)]
        show (text.take 4096, (⟨text.drop 4096,
          decide (text.length < 4096), decide (text.length < 4096)⟩ : TextStream)) = _
        rw [take_of_length_le (Nat.le_of_lt short),
          drop_of_length_le (Nat.le_of_lt short), decide_eq_true short]
      obtain ⟨n, isFuel⟩ : ∃ n, fuel = n + 1 := ⟨fuel - 1, by omega⟩
      rw [reads, isFuel]
      rfl
    · have reads : (TextStream.ofText text).read 4096 =
          (text.take 4096, .ofText (text.drop 4096)) := by
        unfold TextStream.read
        rw [if_pos (TextStream.good_ofText text)]
        show (text.take 4096, (⟨text.drop 4096,
          decide (text.length < 4096), decide (text.length < 4096)⟩ : TextStream)) = _
        rw [decide_eq_false short]
        rfl
      have later := ih (unparsed ++ text.take 4096) (by
        rw [length_drop]
        omega : (text.drop 4096).length + 1 < fuel)
      rw [reads]
      show readAll fuel (.ofText (text.drop 4096)) (unparsed ++ text.take 4096) = _
      rw [later, append_assoc, take_append_drop]

theorem readContent_part (part : FilePart) (length : Nat) :
    (create ⟨part.header, length, .eUpshift⟩).readContent (.ofText part.body) = some (part.body, true) := by
  have unset : (create ⟨part.header, length, .eUpshift⟩).fHeader.getContentLength = -1 := rfl
  have reads := readAll_ofText (create ⟨part.header, length, .eUpshift⟩).fUnparsedContent
    (by omega : part.body.length + 1 < part.body.length + 2)
  unfold readContent
  rw [unset]
  show (readAll (part.body.length + 2) (.ofText part.body)
    (create ⟨part.header, length, .eUpshift⟩).fUnparsedContent >>= fun read => some (read.1, read.2.eof)) = _
  rw [reads]
  rfl

variable {part : FilePart}

theorem contains_contentType (simple : part.Simple) :
    contains (part.contentType.getD contentTypeMultipart) contentTypeAnything = none := by
  cases type : part.contentType with
  | none => decide
  | some t => exact (simple.contentType t (mem_def.mpr type)).2.2

theorem doParseBody_part (simple : part.Simple)
    (importAny : TextStream → Option Anything) (length : Nat) :
    (create ⟨part.header, length, .eUpshift⟩).doParseBody importAny (.ofText part.body) =
      some (true, { create ⟨part.header, length, .eUpshift⟩ with
        fContent := .array [([], .charPtr part.body)]
        fUnparsedContent := part.body }) := by
  have type : ((create ⟨part.header, length, .eUpshift⟩).fHeader.lookup
      contentTypeSlotname).asString = part.contentType.getD contentTypeMultipart := rfl
  have disposition : (create ⟨part.header, length, .eUpshift⟩).fHeader.lookup
      contentDispositionSlotname = part.dispositionInfo := rfl
  have formData : part.dispositionInfo.contains (lit "form-data") = true := rfl
  have name : (part.dispositionInfo.atKey (lit "NAME")).asString = part.name := rfl
  have filename : (part.dispositionInfo.atKey (lit "FILENAME")).asString = part.filename := rfl
  unfold doParseBody
  simp only [type, contains_contentType simple, isSome_none, Bool.false_eq_true, if_false,
    readContent_part, bind_eq_bind, bind_some, disposition, formData, name, filename, true_and,
    if_pos (And.intro simple.name.1 simple.filename.1)]
  rfl

theorem parseWithin_part (simple : part.Simple)
    (importAny : TextStream → Option Anything) (length depth : Nat) :
    parseWithin importAny (depth + 1) (create ⟨part.header, length, .eUpshift⟩)
        (.ofText part.body) =
      some (.ok (true, { create ⟨part.header, length, .eUpshift⟩ with
        fContent := .array [([], .charPtr part.body)]
        fUnparsedContent := part.body })) := by
  have single : (create ⟨part.header, length, .eUpshift⟩).fHeader.isMultiPart = false := rfl
  rw [parseWithin, single, if_neg Bool.false_ne_true, doParseBody_part simple importAny]
  rfl

/-- The text of a part adds what the part is. -/
theorem addPart_text (readable : part.Readable)
    (importAny : TextStream → Option Anything) (depth : Nat) (this : HTTPPostRequestBodyParser) :
    addPart (parseWithin importAny (depth + 1)) this part.text =
      some (.ok { this with fContent := this.fContent.append part.info }) := by
  rcases part.parseHeaders_text readable with ⟨length, parses⟩
  have some' : part.text ≠ [] := cons_ne_nil _ _
  unfold addPart
  rw [if_neg some', parses]
  simp only [bind_eq_bind, bind_some, part.withContentType_stored,
    parseWithin_part readable.toSimple importAny length depth]
  rfl

end HTTPPostRequestBodyParser

end Coast
