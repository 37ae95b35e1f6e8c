import Coast.StdDataAccess.HeaderFields

/-!
# The limits of a header

`ParseHeaders` limits the length of a line and the length of all lines with a
field; where it throws it has read at most one line more.
-/

namespace Coast

open URLUtils HTTPConstants List Nat

/-! ## What a line takes of the stream -/

namespace TextStream

theorem rest_peek (is : TextStream) : is.peek.2.rest = is.rest := by
  rw [peek]
  split
  · split <;> rfl
  · rfl

theorem getUntil_taken (delim : Byte) (length : Nat) (is : TextStream) :
    is.rest = (is.getUntil delim length).1 ++ (is.getUntil delim length).2.rest ∧
      (is.getUntil delim length).1.length ≤ length := by
  rw [getUntil]
  split
  · have front := ( take_prefix length
      (is.rest.takeWhile (· ≠ delim))).trans ( takeWhile_prefix _)
    exact ⟨(prefix_iff_eq_append.mp front).symm, length_take_le _ _⟩
  · exact ⟨rfl, zero_le _⟩

theorem appendUntil_taken (delim : Byte) (length : Nat) (is : TextStream) :
    is.rest = (is.appendUntil delim length).1 ++ (is.appendUntil delim length).2.rest ∧
      (is.appendUntil delim length).1.length ≤ length := by
  rw [appendUntil]
  split
  · exact ⟨rfl, zero_le _⟩
  · dsimp only
    split
    · exact ⟨is.rest_peek.symm, zero_le _⟩
    · rw [← is.rest_peek]
      exact getUntil_taken delim length is.peek.2

theorem get_taken (is : TextStream) : is.rest = is.get.1.toList ++ is.get.2.rest := by
  rw [get]
  split
  · split
    · rfl
    · rename_i here
      exact here
  · rfl

end TextStream

namespace StreamUtils

def nextChar (is : TextStream) : Option Byte × TextStream :=
  if is.peek.1.isSome then is.peek.2.get else (none, is.peek.2)

theorem nextChar_taken (is : TextStream) :
    is.rest = (nextChar is).1.toList ++ (nextChar is).2.rest ∧
      (nextChar is).1.toList.length ≤ 1 := by
  have few : (nextChar is).1.toList.length ≤ 1 := by
    cases (nextChar is).1 with
    | none => exact zero_le 1
    | some c => exact le_refl 1
  refine ⟨?_, few⟩
  rw [← is.rest_peek, nextChar]
  split
  · exact is.peek.2.get_taken
  · rfl

theorem getLineFromStream_eq {is : TextStream} (good : is.good = true) (maxlinelen : Nat) :
    getLineFromStream is maxlinelen =
      (let read := is.appendUntil LF maxlinelen
      let next := nextChar read.2
      let line := read.1 ++ next.1.toList
      if maxlinelen < line.length then
        (.error (.lineSizeExceeded line maxlinelen line.length), next.2)
      else (.ok line, next.2)) := by
  rw [getLineFromStream, good]
  rfl

/-- What is read is at most one character longer than the limit, and is the
line where nothing is thrown. -/
theorem getLineFromStream_taken (is : TextStream) (maxlinelen : Nat) :
    ∃ taken, is.rest = taken ++ (getLineFromStream is maxlinelen).2.rest ∧
      taken.length ≤ maxlinelen + 1 ∧
      ∀ line, (getLineFromStream is maxlinelen).1 = .ok line →
        line = taken ∧ line.length ≤ maxlinelen := by
  cases good : is.good with
  | false =>
    rw [getLineFromStream, good]
    exact ⟨[], rfl, zero_le _, fun line same => by cases same⟩
  | true =>
    rcases TextStream.appendUntil_taken LF maxlinelen is with ⟨front, short⟩
    rcases nextChar_taken (is.appendUntil LF maxlinelen).2 with ⟨behind, few⟩
    rw [getLineFromStream_eq good]
    dsimp only
    refine ⟨(is.appendUntil LF maxlinelen).1 ++
      (nextChar (is.appendUntil LF maxlinelen).2).1.toList, ?_, ?_, ?_⟩
    · rw [append_assoc]
      split
      · exact front.trans (congrArg _ behind)
      · exact front.trans (congrArg _ behind)
    · rw [length_append]
      omega
    · intro line
      split
      · intro same
        cases same
      · rename_i within
        intro same
        cases same
        exact ⟨rfl, Nat.le_of_not_lt within⟩

theorem getLineFromStream_long {line rest : Bytes} {maxlinelen : Nat}
    (inside : LF ∉ line) (more : rest ≠ []) (long : maxlinelen ≤ line.length) :
    ∃ exception is, getLineFromStream (.ofText (line ++ rest)) maxlinelen =
      (.error exception, is) := by
  have behind : line.drop maxlinelen ++ rest ≠ [] := fun nothing =>
    more (append_eq_nil_iff.mp nothing).2
  have length : (line.take maxlinelen).length = maxlinelen := length_take_of_le long
  have parts : line ++ rest = line.take maxlinelen ++ (line.drop maxlinelen ++ rest) := by
    rw [← append_assoc, take_append_drop]
  have reads : (TextStream.ofText (line ++ rest)).appendUntil LF maxlinelen =
      (line.take maxlinelen, .ofText (line.drop maxlinelen ++ rest)) := by
    cases maxlinelen with
    | zero => rfl
    | succ n =>
      have free : LF ∉ line.take (n + 1) := fun member =>
        inside (mem_of_mem_take member)
      have positive : 0 < (line.take (n + 1)).length := by omega
      have cut := @TextStream.appendUntil_cut LF (line.take (n + 1))
        (line.drop (n + 1) ++ rest) positive free behind
      rw [length] at cut
      rw [parts]
      exact cut
  cases left : line.drop maxlinelen ++ rest with
  | nil => exact absurd left behind
  | cons c left' =>
    rw [left] at reads
    have past : maxlinelen < (line.take maxlinelen ++ [c]).length := by
      rw [length_append, length]
      exact lt_succ_self _
    refine ⟨.lineSizeExceeded (line.take maxlinelen ++ [c]) maxlinelen
      (line.take maxlinelen ++ [c]).length, .ofText left', ?_⟩
    rw [getLineFromStream_eq (TextStream.good_ofText _), reads]
    exact if_pos past

end StreamUtils

namespace MIMEHeader

variable {maxlinelen maxheaderlen : Nat}

variable {this : MIMEHeader}

theorem parseHeadersLoop_taken {fuel : Nat} {is left : TextStream} {exception : MIMEException}
    (result : parseHeadersLoop maxlinelen maxheaderlen fuel this is = some (.error exception, left))
    (within : this.fParsedHeaderLength ≤ maxheaderlen) :
    ∃ taken, is.rest = taken ++ left.rest ∧
      this.fParsedHeaderLength + taken.length ≤ maxheaderlen + (maxlinelen + 1) := by
  induction fuel generalizing this is with
  | zero => cases result
  | succ fuel ih =>
    rcases StreamUtils.getLineFromStream_taken is maxlinelen with ⟨taken, front, few, whole⟩
    rw [parseHeadersLoop] at result
    rcases read : StreamUtils.getLineFromStream is maxlinelen with ⟨line | line, is'⟩
    · rw [read] at result front
      cases result
      exact ⟨taken, front, by omega⟩
    · rw [read] at result front whole
      rcases whole line rfl with ⟨rfl, short⟩
      dsimp only at result front
      split at result
      · cases result
      · split at result
        · cases result
          exact ⟨line, front, by omega⟩
        · rename_i fits
          split at result
          · cases result
            exact ⟨line, front, by omega⟩
          · rcases ih result (Nat.le_of_not_lt fits) with ⟨others, behind, few⟩
            refine ⟨line ++ others, ?_, ?_⟩
            · rw [front, behind, append_assoc]
            · rw [length_append]
              dsimp only at few
              omega

theorem parseHeadersLoop_long {line : Bytes}
    (inside : LF ∉ line) (long : maxlinelen < line.length + 2) (fuel : Nat) (rest : Bytes) :
    ∃ exception left, parseHeadersLoop maxlinelen maxheaderlen (fuel + 1) this
        (.ofText (line ++ CR :: LF :: rest)) =
      some (.error exception, left) := by
  have inside' : LF ∉ line ++ [CR] := by
    intro member
    rcases mem_append.mp member with inLine | isCR
    · exact inside inLine
    · exact absurd (mem_singleton.mp isCR) (by decide)
  have enough : maxlinelen ≤ (line ++ [CR]).length := by
    rw [length_append, length_singleton]
    omega
  rcases StreamUtils.getLineFromStream_long inside'
    (cons_ne_nil LF rest) enough with ⟨exception, left, reads⟩
  rw [append_assoc] at reads
  refine ⟨exception, left, ?_⟩
  rw [parseHeadersLoop]
  simp only [singleton_append] at reads
  rw [reads]

end MIMEHeader

/-! ## Lists of fields -/

namespace HeaderField

/-- Every line with its end is within the limit of a line, and all lines with a
field are within the limit of the header. -/
structure Fits (fields : List HeaderField) (maxlinelen maxheaderlen : Nat) : Prop where
  lines : ∀ field ∈ fields, field.text.length ≤ maxlinelen
  emptyLine : crlf.length ≤ maxlinelen
  header : (fields.map fun field => field.text.length).sum ≤ maxheaderlen

def valuesOf (tag : NormalizeTag) (key : Bytes) (fields : List HeaderField) : List Bytes :=
  (fields.filter fun field => field.key tag = key).map value

def storedValues (tag : NormalizeTag) (key : Bytes) (values : List Bytes)
    (fields : List HeaderField) : List Bytes :=
  fields.foldl (fun values field => field.stepValues tag key values) values

section

variable (field : HeaderField)
include field

theorem notMem_line : LF ∉ field.line := by
  intro member
  rcases mem_append.mp member with inName | behind
  · exact (field.nameInLine LF inName).2.1 rfl
  · rcases mem_cons.mp behind with isColon | behind
    · exact absurd isColon (by decide)
    · rcases mem_cons.mp behind with isBlank | inValue
      · exact absurd isBlank (by decide)
      · exact (field.valueInLine LF inValue).2.1 rfl

theorem line_ne_nil : field.line ≠ [] := append_ne_nil_of_left_ne_nil field.named _

theorem length_text : field.text.length = field.line.length + 2 := by
  rw [text, length_append]
  rfl

theorem headerText_cons (fields : List HeaderField) (body : Bytes) :
    headerText (field :: fields) ++ body =
      field.line ++ CR :: LF :: (headerText fields ++ body) := by
  simp [headerText, text, crlf]

end

theorem length_le_headerText (fields : List HeaderField) :
    fields.length ≤ (headerText fields).length := by
  induction fields with
  | nil => exact zero_le _
  | cons field fields ih =>
    have shape := headerText_cons field fields []
    rw [append_nil, append_nil] at shape
    rw [shape, length_append, length_cons, length_cons, length_cons]
    omega

theorem stepValues_of_ne {field : HeaderField} {tag : NormalizeTag} {key : Bytes}
    (free : key = boundaryKey tag → field.boundary tag = none) (values : List Bytes) :
    field.stepValues tag key values =
      if key = field.key tag then values ++ [field.value] else values := by
  rw [stepValues]
  cases found : field.boundary tag with
  | none => rfl
  | some strBoundary =>
    have other : key ≠ boundaryKey tag := by
      intro same
      rw [free same] at found
      cases found
    exact if_neg other

theorem storedValues_eq {tag : NormalizeTag} {key : Bytes}
    {fields : List HeaderField} (free : key = boundaryKey tag →
      ∀ field ∈ fields, field.boundary tag = none) (values : List Bytes) :
    storedValues tag key values fields = values ++ valuesOf tag key fields := by
  induction fields generalizing values with
  | nil => exact (append_nil values).symm
  | cons field fields ih =>
    have later := ih fun same other member =>
      free same other (mem_cons_of_mem field member)
    have here := stepValues_of_ne (fun same =>
      free same field mem_cons_self) values
    rw [storedValues, foldl_cons, here]
    refine (later _).trans ?_
    rw [valuesOf, valuesOf, filter_cons]
    by_cases same : key = field.key tag
    · rw [if_pos same, if_pos (decide_eq_true same.symm), map_cons, append_assoc]
      rfl
    · rw [if_neg same, if_neg fun isKey => same (of_decide_eq_true isKey).symm]

end HeaderField

namespace MIMEHeader

open HeaderField

variable {maxlinelen maxheaderlen : Nat}

variable {fields : List HeaderField}

theorem parseHeadersLoop_fields {fuel : Nat}
    (enough : fields.length < fuel) {this : MIMEHeader}
    {values : Bytes → List Bytes} (holds : Holds this.fHeader values)
    (lines : ∀ field ∈ fields, field.text.length ≤ maxlinelen) (emptyLine : 2 ≤ maxlinelen)
    (header : this.fParsedHeaderLength +
    (fields.map fun field => field.text.length).sum ≤ maxheaderlen) (body : Bytes) :
    ∃ parsed : MIMEHeader, parseHeadersLoop maxlinelen maxheaderlen fuel this
          (.ofText (headerText fields ++ body)) =
        some (.ok parsed, .ofText body) ∧
      Holds parsed.fHeader fun key =>
        storedValues this.fNormalizeKey key (values key) fields := by
  induction fields generalizing fuel this values with
  | nil =>
    cases fuel with
    | zero => cases enough
    | succ fuel =>
      exact ⟨_, parseHeadersLoop_end this emptyLine fuel body, holds⟩
  | cons field fields ih =>
    cases fuel with
    | zero => cases enough
    | succ fuel =>
      rw [forall_mem_cons, length_text] at lines
      rw [map_cons, sum_cons, length_text] at header
      rcases holds.step field this.fNormalizeKey with ⟨headers, adds, after⟩
      have within : ¬maxheaderlen < this.fParsedHeaderLength + field.line.length + 2 := by omega
      rw [headerText_cons, parseHeadersLoop_line field.notMem_line
        field.line_ne_nil lines.1 adds, if_neg within]
      exact ih (lt_of_succ_lt_succ enough) after lines.2 (by dsimp only; omega)

theorem parseHeadersLoop_throws {fuel : Nat}
    (enough : fields.length < fuel) {this : MIMEHeader}
    {values : Bytes → List Bytes} (holds : Holds this.fHeader values)
    (within : this.fParsedHeaderLength ≤ maxheaderlen)
    (outside : ¬((∀ field ∈ fields, field.text.length ≤ maxlinelen) ∧
      2 ≤ maxlinelen ∧ this.fParsedHeaderLength +
    (fields.map fun field => field.text.length).sum ≤ maxheaderlen)) (body : Bytes) :
    ∃ exception left, parseHeadersLoop maxlinelen maxheaderlen fuel this
        (.ofText (headerText fields ++ body)) =
      some (.error exception, left) := by
  induction fields generalizing fuel this values with
  | nil =>
    cases fuel with
    | zero => cases enough
    | succ fuel =>
      have short : maxlinelen < 2 := by
        by_contra long
        exact outside ⟨fun _ member => (nomatch member), by omega, within⟩
      exact parseHeadersLoop_long (not_mem_nil : LF ∉ []) short fuel body
  | cons field fields ih =>
    cases fuel with
    | zero => cases enough
    | succ fuel =>
      rw [headerText_cons]
      by_cases long : maxlinelen < field.line.length + 2
      · exact parseHeadersLoop_long field.notMem_line long fuel _
      · rcases holds.step field this.fNormalizeKey with ⟨headers, adds, after⟩
        rw [parseHeadersLoop_line field.notMem_line field.line_ne_nil (Nat.le_of_not_lt long) adds]
        split
        · exact ⟨_, _, rfl⟩
        · rename_i fits
          refine ih (lt_of_succ_lt_succ enough) after (Nat.le_of_not_lt fits) ?_
          intro inside
          apply outside
          rw [forall_mem_cons, map_cons, sum_cons, length_text]
          have sum := inside.2.2
          dsimp only at sum
          exact ⟨⟨Nat.le_of_not_lt long, inside.1⟩, inside.2.1, by omega⟩

/-- Fields that fit are read up to the empty line.  Under a name that no
boundary is put under stand the values of its fields in their order, and under
the name of the boundary what the fields leave there.  Fields that do not fit
are an exception within the header and one line. -/
theorem parseHeaders_fields (tag : NormalizeTag) (fields : List HeaderField)
    (body : Bytes) (maxlinelen maxheaderlen : Nat) :
    (Fits fields maxlinelen maxheaderlen →
      ∃ parsed : MIMEHeader, (create tag).parseHeaders (.ofText (headerText fields ++ body))
            maxlinelen maxheaderlen = some (.ok parsed, .ofText body) ∧
        (∀ key, NulFree key → key ≠ [] →
          (key = boundaryKey tag → ∀ field ∈ fields, field.boundary tag = none) →
          Slots.lookup parsed.fHeader.slots key = slotOf (valuesOf tag key fields)) ∧
        Slots.lookup parsed.fHeader.slots (boundaryKey tag) =
          slotOf (storedValues tag (boundaryKey tag) [] fields)) ∧
    (¬Fits fields maxlinelen maxheaderlen →
      ∃ exception left taken, (create tag).parseHeaders (.ofText (headerText fields ++ body))
            maxlinelen maxheaderlen = some (.error exception, left) ∧
        headerText fields ++ body = taken ++ left.rest ∧
        taken.length ≤ maxheaderlen + (maxlinelen + 1)) := by
  have enough : fields.length <
      (TextStream.ofText (headerText fields ++ body)).rest.length + 1 := by
    have least := length_le_headerText fields
    show fields.length < (headerText fields ++ body).length + 1
    rw [length_append]
    omega
  have holds : Holds (create tag).fHeader fun _ => [] := holds_null
  have start : (create tag).fParsedHeaderLength = 0 := rfl
  constructor
  · intro fits
    have header : (create tag).fParsedHeaderLength +
        (fields.map fun field => field.text.length).sum ≤ maxheaderlen := by
      rw [start, zero_add]
      exact fits.header
    rcases parseHeadersLoop_fields enough holds fits.lines fits.emptyLine
      header body with ⟨parsed, result, stored⟩
    refine ⟨parsed, result, ?_, ?_⟩
    · intro key nulFree named free
      rw [stored.lookup key nulFree named]
      exact congrArg slotOf (storedValues_eq free [])
    · have nulFree : NulFree (boundaryKey tag) := by cases tag <;> decide
      have named : boundaryKey tag ≠ [] := by cases tag <;> decide
      exact stored.lookup _ nulFree named
  · intro outside
    have outside' : ¬((∀ field ∈ fields, field.text.length ≤ maxlinelen) ∧
        2 ≤ maxlinelen ∧ (create tag).fParsedHeaderLength +
          (fields.map fun field => field.text.length).sum ≤ maxheaderlen) := by
      rw [start, zero_add]
      exact fun inside => outside ⟨inside.1, inside.2.1, inside.2.2⟩
    rcases parseHeadersLoop_throws enough holds (zero_le _) outside' body
      with ⟨exception, left, result⟩
    rcases parseHeadersLoop_taken result (zero_le _) with ⟨taken, front, few⟩
    rw [start, zero_add] at few
    exact ⟨exception, left, taken, result, front, few⟩

/-- Under every name stand the values of its fields that are not empty. -/
def StoresNonEmpty (tag : NormalizeTag) (fields : List HeaderField) : Prop :=
  ∀ maxlinelen maxheaderlen, Fits fields maxlinelen maxheaderlen →
    ∃ parsed : MIMEHeader, (create tag).parseHeaders (.ofText (headerText fields)) maxlinelen
          maxheaderlen = some (.ok parsed, .ofText []) ∧
      ∀ field ∈ fields, Slots.lookup parsed.fHeader.slots (field.key tag) =
        slotOf ((valuesOf tag (field.key tag) fields).filter (· ≠ []))

theorem StoresNonEmpty.storedValues {tag : NormalizeTag} (stores : StoresNonEmpty tag fields)
    {field : HeaderField} (member : field ∈ fields) :
    slotOf ((valuesOf tag (field.key tag) fields).filter (· ≠ [])) =
      slotOf (storedValues tag (field.key tag) [] fields) := by
  obtain ⟨total, isTotal⟩ : ∃ total,
      total = (fields.map fun field => field.text.length).sum := ⟨_, rfl⟩
  have lines : ∀ field ∈ fields, field.text.length ≤ total + 2 := by
    intro field member
    have one := le_sum_of_mem
      (mem_map_of_mem (f := fun field => field.text.length) member)
    omega
  have start : (create tag).fParsedHeaderLength = 0 := rfl
  have enough : fields.length < (headerText fields ++ []).length + 1 := by
    rw [append_nil]
    exact lt_succ_of_le (length_le_headerText fields)
  have header : (create tag).fParsedHeaderLength +
      (fields.map fun field => field.text.length).sum ≤ total := by
    rw [start, zero_add]
    exact le_of_eq isTotal.symm
  have holds : Holds (create tag).fHeader fun _ => [] := holds_null
  rcases parseHeadersLoop_fields enough holds lines (le_add_left 2 total)
    header [] with ⟨parsed, result, stored⟩
  rcases stores (total + 2) total ⟨lines, le_add_left 2 total,
    le_of_eq isTotal.symm⟩ with ⟨parsed', result', stored'⟩
  rw [parseHeaders] at result'
  rw [append_nil] at result
  have same : parsed = parsed' := by
    have both := result.symm.trans result'
    injection both with both
    injection both with both
    exact Except.ok.inj both
  rw [← stored' field member, ← same]
  exact stored.lookup _ (field.nulFree_key tag) (field.key_ne_nil tag)

def emptyField : HeaderField where
  name := lit "A"
  value := []
  named := by decide
  noColon := by decide
  nameInLine := by decide +kernel
  single := by decide +kernel
  plain := by decide
  valueInLine := fun _ member => nomatch member
  noBlank := by decide

def boundaryField : HeaderField where
  name := lit "Boundary"
  value := lit "x"
  named := by decide
  noColon := by decide
  nameInLine := by decide +kernel
  single := by decide +kernel
  plain := by decide
  valueInLine := by decide +kernel
  noBlank := by decide

def multipartField : HeaderField where
  name := lit "Content-Type"
  value := lit "multipart/form-data; boundary=y"
  named := by decide
  noColon := by decide
  nameInLine := by decide +kernel
  single := by decide +kernel
  plain := by decide
  valueInLine := by decide +kernel
  noBlank := by decide

/-- An empty value is stored, and a boundary takes the place of the values
under its name. -/
theorem not_storesNonEmpty :
    ¬StoresNonEmpty .eUpshift [emptyField] ∧
      ¬StoresNonEmpty .eUpshift [boundaryField, multipartField] := by
  constructor
  · intro stores
    have stored := stores.storedValues mem_cons_self
    cases stored
  · intro stores
    have stored := stores.storedValues mem_cons_self
    have values : (valuesOf .eUpshift (boundaryField.key .eUpshift)
        [boundaryField, multipartField]).filter (· ≠ []) = [lit "x"] := by
      decide +kernel
    have left : storedValues .eUpshift (boundaryField.key .eUpshift) []
        [boundaryField, multipartField] = [lit "y"] := by
      decide +kernel
    rw [values, left] at stored
    exact absurd (Anything.charPtr.inj (Option.some.inj stored)) (by decide)

end MIMEHeader

end Coast
