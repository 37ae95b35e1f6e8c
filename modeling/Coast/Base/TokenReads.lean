import Coast.Base.AnythingParser

/-!
# Tokens of the printed forms

Each piece of text that a printer writes is read as one token.  What is
between two pieces matters only for a number, which ends at a delimiter.
-/

namespace Coast

open IStream List

namespace AnythingToken

theorem space_tests (c : Byte) (space : isspace c = true) :
    c ≠ ch '{' ∧ c ≠ ch '}' ∧ c ≠ ch '*' ∧ c ≠ ch '&' ∧ c ≠ ch '/' ∧
      c ≠ ch '%' ∧ c ≠ ch '!' ∧ c ≠ ch '"' ∧ c ≠ ch '[' ∧ c ≠ ch '0' ∧
      c ≠ ch '+' ∧ c ≠ ch '-' ∧ c ≠ ch '.' ∧ isdigit c = false ∧
      c ≠ ch '#' ∧ isalnum c = false ∧ c ≠ ch '_' := by
  revert c
  decide

theorem read_spaces (text : Bytes) :
    ∀ (spaces before : Bytes), (∀ c ∈ spaces, isspace c = true) →
      ∃ before', read (at_ before (spaces ++ text)) = read (at_ before' text)
  | [], before, _ => ⟨before, rfl⟩
  | c :: spaces, before, all => by
      obtain ⟨before', tail⟩ := read_spaces text spaces (c :: before)
        (forall_mem_cons.mp all).2
      refine ⟨before', ?_⟩
      rw [← tail]
      have space : isspace c = true := all c mem_cons_self
      have tests := space_tests c space
      have passed : ∀ (fuel : Nat) (rest : Bytes), readFrom (fuel + 1) (at_ before (c :: rest)) =
            readFrom fuel (at_ (c :: before) rest) := by
        intro fuel rest
        simp [readFrom, tests, space]
      exact passed _ _

variable {c : Byte}

theorem read_char (single : c = ch '{' ∨ c = ch '}' ∨ c = ch '*') (before rest : Bytes) :
    read (at_ before (c :: rest)) = (⟨.char c, [c]⟩, at_ (c :: before) rest) := by
  have test : (c = ch '{' || c = ch '}' || c = ch '*') = true := by
    simpa [or_assoc] using single
  simp only [read, readFrom, get_at_cons, test, if_true]

/-- What is between two quotes and the string that is read from it. -/
def QuotedReads (raw value : Bytes) : Prop :=
  ∀ before rest : Bytes, ∃ newlines before', 0 ≤ newlines ∧ intReadFrom (ch '"')
        (at_ before (ch '"' :: (raw ++ ch '"' :: rest))) =
      (value, newlines, at_ before' rest)

theorem intPrintOn_doubleQuote (s rest : Bytes) :
    intPrintOn (ch '"') s ++ rest =
      ch '"' :: (s.flatMap (maskedChar (ch '"')) ++ ch '"' :: rest) := by
  rw [intPrintOn, if_neg (by decide), cons_append, append_assoc]
  rfl

theorem quotedReads_masked (s : Bytes) : QuotedReads (s.flatMap (maskedChar (ch '"'))) s := by
  intro before rest
  obtain ⟨before', result⟩ := intReadFrom_intPrintOn isQuote_doubleQuote s before rest
  exact ⟨0, before', Int.le_refl 0, by rw [← result, intPrintOn_doubleQuote]⟩

variable {value : Bytes}

theorem doReadString_quoted {raw : Bytes} (reads : QuotedReads raw value) (before rest : Bytes) :
    ∃ before', doReadString (ch '"')
        (at_ (ch '"' :: before) (raw ++ ch '"' :: rest)) =
      (⟨.eString, value⟩, at_ before' rest) := by
  obtain ⟨newlines, before', nonnegative, result⟩ := reads before rest
  refine ⟨before', ?_⟩
  unfold doReadString
  rw [putback_at, result]
  simp [Int.not_lt.mpr nonnegative]

theorem read_quoted {raw : Bytes} (reads : QuotedReads raw value) (before rest : Bytes) :
    ∃ before', read (at_ before (ch '"' :: (raw ++ ch '"' :: rest))) =
      (⟨.eString, value⟩, at_ before' rest) := by
  obtain ⟨before', result⟩ := doReadString_quoted reads before rest
  refine ⟨before', ?_⟩
  rw [← result]
  simp [read, readFrom, show ch '"' ≠ ch '{' by decide,
    show ch '"' ≠ ch '}' by decide, show ch '"' ≠ ch '*' by decide,
    show ch '"' ≠ ch '&' by decide, show ch '"' ≠ ch '/' by decide,
    show ch '"' ≠ ch '%' by decide, show ch '"' ≠ ch '!' by decide]

theorem read_intPrintOn (s before rest : Bytes) :
    ∃ before', read (at_ before (intPrintOn (ch '"') s ++ rest)) =
      (⟨.eString, s⟩, at_ before' rest) := by
  rw [intPrintOn_doubleQuote]
  exact read_quoted (quotedReads_masked s) before rest

inductive Reference : Byte → Tok → Prop
  | index : Reference (ch '/') .eIndex
  | ref : Reference (ch '%') .eRef
  | include_ : Reference (ch '!') .eInclude

theorem read_reference {sign : Byte} {theToken : Tok}
    (reference : Reference sign theToken) (before rest : Bytes) :
    read (at_ before (sign :: rest)) = doReadReference theToken (at_ (sign :: before) rest) := by
  cases reference <;> rfl

theorem read_quotedReference {sign : Byte} {theToken : Tok} (reference : Reference sign theToken)
    {raw : Bytes} (reads : QuotedReads raw value) (nonempty : value ≠ []) (before rest : Bytes) :
    ∃ before', read
        (at_ before (sign :: ch '"' :: (raw ++ ch '"' :: rest))) =
      (⟨theToken, value⟩, at_ before' rest) := by
  obtain ⟨before', result⟩ := doReadString_quoted reads (sign :: before) rest
  refine ⟨before', ?_⟩
  rw [read_reference reference]
  simp only [doReadReference, get_at_cons, if_true, result, if_neg nonempty]

theorem isNameDelimiter_of_isspace (space : isspace c = true) : isNameDelimiter c = true := by
  simp [isNameDelimiter, space]

theorem putbackUnlessNul_at (before rest : Bytes) (notNul : c ≠ 0) :
    (at_ (c :: before) rest).putbackUnlessNul c = at_ before (c :: rest) := by
  rw [putbackUnlessNul, if_neg notNul, putback_at]

variable {stop : Byte}

theorem doReadName_at (text word before rest : Bytes) (firstchar : Byte)
    (plain : ∀ c ∈ word, isNameDelimiter c = false) (delimiter : isNameDelimiter stop = true) :
    doReadName text firstchar (at_ before (word ++ stop :: rest)) =
      (⟨.eString, text ++ firstchar :: word⟩, stop,
        at_ (stop :: (word.reverse ++ before)) rest) := by
  unfold doReadName
  rw [collect_at (fun c => !isNameDelimiter c) (by simp [delimiter]) word
    before rest (fun c member => by simp [plain c member])]
  rfl

theorem read_printKey {key : Bytes} (nonempty : key ≠ []) (before rest : Bytes) :
    ∃ before', read (at_ before (printKey key ++ rest)) =
      (⟨.eIndex, key⟩, at_ before' (ch ' ' :: rest)) := by
  unfold printKey
  by_cases quoted : needquote key = true
  · rw [if_pos quoted, cons_append, append_assoc, intPrintOn_doubleQuote]
    exact read_quotedReference .index (quotedReads_masked key) nonempty before _
  · rw [if_neg quoted]
    cases key with
    | nil => exact absurd rfl nonempty
    | cons c word =>
      have plain : ∀ d ∈ c :: word, isNameDelimiter d = false := by
        simpa [needquote] using (Bool.or_eq_false_iff.mp (Bool.eq_false_iff.mpr quoted)).2
      have first := plain c mem_cons_self
      have notQuote : c ≠ ch '"' := by
        rintro rfl
        revert first
        decide
      have name := doReadName_at [] word (c :: ch '/' :: before) rest c
        (forall_mem_cons.mp plain).2 (show isNameDelimiter (ch ' ') = true by decide)
      refine ⟨word.reverse ++ c :: ch '/' :: before, ?_⟩
      have text : ch '/' :: (c :: word ++ [ch ' ']) ++ rest =
          ch '/' :: c :: (word ++ ch ' ' :: rest) := by
        simp
      rw [text, read_reference .index]
      simp only [doReadReference, get_at_cons, if_neg notQuote, first,
        Bool.not_false, if_true, name,
        putbackUnlessNul_at _ _ (show ch ' ' ≠ 0 by decide),
        nil_append]

theorem read_printVoidBuf (bounded : value.length < 2 ^ 63) (before rest : Bytes) :
    ∃ before', read (at_ before (printVoidBuf value ++ rest)) =
      (⟨.eBinaryBuf, value⟩, at_ before' rest) := by
  obtain ⟨before₁, length⟩ := extractLong_digitsText value.length bounded
    (show isdigit (ch ';') = false by decide) (ch '[' :: before)
    (value ++ ch ']' :: rest)
  obtain ⟨before₂, contents⟩ := readCount_at value (ch ';' :: before₁) (ch ']' :: rest)
  refine ⟨ch ']' :: before₂, ?_⟩
  have text : printVoidBuf value ++ rest = ch '[' ::
      (digitsText value.length ++ ch ';' :: (value ++ ch ']' :: rest)) := by
    simp [printVoidBuf]
  have dispatch : ∀ rest : Bytes, read (at_ before (ch '[' :: rest)) =
      doReadBinBuf (at_ (ch '[' :: before) rest) := fun _ => rfl
  rw [text, dispatch]
  unfold doReadBinBuf
  rw [length]
  simp [IStream.next, contents]

/-- A word that begins as a number does. -/
structure NumberWord (word : Bytes) : Prop where
  start : ∃ c tail, word = c :: tail ∧
    (isdigit c = true ∨ (c = ch '-' ∧ ∃ d rest, tail = d :: rest ∧ isdigit d = true))
  chars : ∀ c ∈ word, isdigit c = true ∨ c = ch '-'

def numberToken (word : Bytes) : AnythingToken :=
  if ch '-' ∈ word.tail then ⟨.eString, word⟩
  else if word.head? = some (ch '0') ∧ word.all isOctalDigit then
    ⟨.eOctalNumber, word⟩
  else ⟨.eDecimalNumber, word⟩

theorem numberToken_shape (word : Bytes) :
    numberToken word = ⟨.eString, word⟩ ∨ numberToken word = ⟨.eOctalNumber, word⟩ ∨
      numberToken word = ⟨.eDecimalNumber, word⟩ := by
  unfold numberToken
  split
  · exact Or.inl rfl
  · split
    · exact Or.inr (Or.inl rfl)
    · exact Or.inr (Or.inr rfl)

theorem numberWord_decimalText (n : Int) : NumberWord (decimalText n) := by
  refine ⟨?_, decimalText_chars n⟩
  obtain ⟨c, text, same, start, digits⟩ := decimalText_eq_cons n
  refine ⟨c, text, same, ?_⟩
  rcases start with digit | minus
  · exact Or.inl digit
  · refine Or.inr ⟨minus, ?_⟩
    cases text with
    | nil =>
      exfalso
      have signed : decimalText n = [ch '-'] := by rw [same, minus]
      unfold decimalText at signed
      split at signed
      · exact digitsText_ne_nil _ (List.cons.inj signed).2
      · have digit := isdigit_digitsText n.natAbs (ch '-')
          (by rw [signed]; exact mem_cons_self)
        revert digit
        decide
    | cons d rest => exact ⟨d, rest, rfl, digits d mem_cons_self⟩

theorem NumberWord.append {left right : Bytes} (first : NumberWord left)
    (second : NumberWord right) : NumberWord (left ++ right) := by
  refine ⟨?_, ?_⟩
  · obtain ⟨c, tail, rfl, start⟩ := first.start
    refine ⟨c, tail ++ right, rfl, ?_⟩
    rcases start with digit | ⟨minus, d, rest, rfl, digit⟩
    · exact Or.inl digit
    · exact Or.inr ⟨minus, d, rest ++ right, rfl, digit⟩
  · intro c member
    rcases mem_append.mp member with inLeft | inRight
    · exact first.chars c inLeft
    · exact second.chars c inRight

def EndsDigits (c : Byte) : Prop := c = ch '-' ∨ (isNameDelimiter c = true ∧ c ≠ 0)

private theorem endsDigits_tests (ends : EndsDigits c) :
    isdigit c = false ∧ isOctalDigit c = false ∧ c ≠ ch '.' ∧
      toupper c ≠ ch 'E' ∧ toupper c ≠ ch 'X' ∧
      isDecimalMark c = false := by
  unfold EndsDigits at ends
  revert c
  decide

private theorem digit_tests (digit : isdigit c = true) :
    c ≠ ch '+' ∧ c ≠ ch '-' ∧ toupper c ≠ ch 'X' ∧ isOctalDigit c = !isDecimalMark c := by
  revert c
  decide

theorem doReadDigits_at (text run before rest : Bytes)
    (digits : ∀ c ∈ run, isdigit c = true) (stops : isdigit stop = false) :
    doReadDigits text (at_ before (run ++ stop :: rest)) =
      (text ++ run, stop, at_ (stop :: (run.reverse ++ before)) rest) := by
  unfold doReadDigits
  rw [collect_at isdigit stops run before rest digits]
  rfl

theorem doReadNumber_digits (text run before rest : Bytes) {first : Byte}
    (digit : isdigit first = true) (digits : ∀ c ∈ run, isdigit c = true) (ends : EndsDigits stop) :
    doReadNumber text first (at_ before (run ++ stop :: rest)) =
      (⟨.eDecimalNumber, text ++ first :: run⟩, stop,
        at_ (stop :: (run.reverse ++ before)) rest) := by
  obtain ⟨noDigit, -, noPoint, noE, -, -⟩ := endsDigits_tests ends
  obtain ⟨noPlus, noMinus, -, -⟩ := digit_tests digit
  have read := doReadDigits_at (text ++ [first]) run before rest digits noDigit
  simp [doReadNumber, doReadExponent, noPlus, noMinus, digit, read, noPoint, noE]

theorem doReadNumber_minus (run before rest : Bytes) {first : Byte}
    (digit : isdigit first = true) (digits : ∀ c ∈ run, isdigit c = true) (ends : EndsDigits stop) :
    doReadNumber [] (ch '-') (at_ before (first :: (run ++ stop :: rest))) =
      (⟨.eDecimalNumber, ch '-' :: first :: run⟩, stop,
        at_ (stop :: (run.reverse ++ first :: before)) rest) := by
  obtain ⟨noDigit, -, noPoint, noE, -, -⟩ := endsDigits_tests ends
  have read := doReadDigits_at [ch '-', first] run (first :: before) rest digits noDigit
  simp [doReadNumber, doReadExponent, IStream.next, digit, read, noPoint, noE]

/-- The digits behind a zero are one token. -/
theorem doReadOctalOrHex_digits (run before rest : Bytes)
    (digits : ∀ c ∈ run, isdigit c = true) (ends : EndsDigits stop) :
    doReadOctalOrHex (at_ before (run ++ stop :: rest)) =
      (⟨if run.all isOctalDigit then .eOctalNumber else .eDecimalNumber, ch '0' :: run⟩,
        stop, at_ (stop :: (run.reverse ++ before)) rest) := by
  obtain ⟨-, noOctal, -, -, noX, noMark⟩ := endsDigits_tests ends
  cases run with
  | nil =>
    simp [doReadOctalOrHex, noX, noOctal, noMark]
  | cons d run =>
    have digit : isdigit d = true := digits d mem_cons_self
    have later : ∀ c ∈ run, isdigit c = true := (forall_mem_cons.mp digits).2
    obtain ⟨-, -, dNoX, octal⟩ := digit_tests digit
    by_cases mark : isDecimalMark d = true
    · have dNoOctal : isOctalDigit d = false := by
        rw [octal, mark]
        rfl
      have number := doReadNumber_digits [] (d :: run) before rest
        (show isdigit (ch '0') = true by decide) digits ends
      simp only [cons_append] at number
      simp [doReadOctalOrHex, dNoX, dNoOctal, mark, number]
    · have dOctal : isOctalDigit d = true := by
        rw [octal, Bool.not_eq_true _ |>.mp mark]
        rfl
      have split := takeWhile_append_dropWhile (p := isOctalDigit) (l := run)
      have prefixOctal : ∀ c ∈ run.takeWhile isOctalDigit, isOctalDigit c = true := fun c member =>
        mem_takeWhile_imp member
      cases tail : run.dropWhile isOctalDigit with
      | nil =>
        have allOctal : ∀ c ∈ run, isOctalDigit c = true := by
          rw [dropWhile_eq_nil_iff] at tail
          exact tail
        have word := collect_at isOctalDigit noOctal run (d :: before) rest allOctal
        have all : run.all isOctalDigit = true := all_eq_true.mpr allOctal
        simp [doReadOctalOrHex, dNoX, dOctal, word, noMark, all]
      | cons e tail' =>
        rw [tail] at split
        have eNoOctal : isOctalDigit e = false := by
          have := head?_dropWhile_not isOctalDigit run
          rw [tail] at this
          simpa using this
        have eInRun : e ∈ run := by
          rw [← split]
          simp
        obtain ⟨-, -, -, eOctal⟩ := digit_tests (later e eInRun)
        have eMark : isDecimalMark e = true := by
          rw [eNoOctal] at eOctal
          simpa using eOctal.symm
        have word := collect_at isOctalDigit eNoOctal (run.takeWhile isOctalDigit) (d :: before)
          (tail' ++ stop :: rest) prefixOctal
        have number := doReadNumber_digits (ch '0' :: d :: run.takeWhile isOctalDigit) tail'
          (e :: ((run.takeWhile isOctalDigit).reverse ++ d :: before))
          rest (later e eInRun)
          (fun c member => later c (by rw [← split]; simp [member]))
          ends
        have notAll : run.all isOctalDigit = false := by
          rw [all_eq_false]
          exact ⟨e, eInRun, by simp [eNoOctal]⟩
        have text : run ++ stop :: rest =
            run.takeWhile isOctalDigit ++ e :: (tail' ++ stop :: rest) := by
          conv => lhs; rw [← split]
          simp
        have reversed : run.reverse = tail'.reverse ++ e ::
            (run.takeWhile isOctalDigit).reverse := by
          conv => lhs; rw [← split]
          simp
        have whole : run.takeWhile isOctalDigit ++ e :: tail' = run := split
        rw [cons_append, text]
        simp [doReadOctalOrHex, dNoX, dOctal, word, eMark, number, notAll, whole, reversed]

def withName (number : AnythingToken) (more : Bytes) : AnythingToken :=
  if more = [] then number else ⟨.eString, number.text ++ more⟩

structure NumberRest (more : Bytes) : Prop where
  start : ∀ c ∈ more.head?, c = ch '-'
  chars : ∀ c ∈ more, isdigit c = true ∨ c = ch '-'

private theorem plain_of_numberChar (numeric : isdigit c = true ∨ c = ch '-') :
    isNameDelimiter c = false := by
  revert c
  decide

private theorem finishNumber_at (number : AnythingToken) {more : Bytes} (shape : NumberRest more)
    (before rest : Bytes) (delimiter : isNameDelimiter stop = true) (notNul : stop ≠ 0) :
    ∃ c text before', more ++ stop :: rest = c :: text ∧ EndsDigits c ∧
      finishNumber (!isNameDelimiter c) number c
          (at_ (c :: before) text) =
        (withName number more, at_ before' (stop :: rest)) := by
  cases more with
  | nil =>
    refine ⟨stop, rest, before, rfl, Or.inr ⟨delimiter, notNul⟩, ?_⟩
    simp [finishNumber, withName, delimiter, putbackUnlessNul_at _ _ notNul]
  | cons c word =>
    have minus : c = ch '-' := shape.start c rfl
    have plain := fun d member =>
      plain_of_numberChar (shape.chars d member)
    have name := doReadName_at number.text word (c :: before) rest c
      (forall_mem_cons.mp plain).2 delimiter
    refine ⟨c, word ++ stop :: rest, word.reverse ++ c :: before, rfl, Or.inl minus, ?_⟩
    simp [finishNumber, withName, plain c mem_cons_self, name, putbackUnlessNul_at _ _ notNul]

theorem read_signed {first : Byte} (numeric : isdigit first = true ∨
      first = ch '-') (notZero : first ≠ ch '0') (before rest : Bytes) :
    read (at_ before (first :: rest)) = doReadSigned first (at_ (first :: before) rest) := by
  have tests : first ≠ ch '{' ∧ first ≠ ch '}' ∧ first ≠ ch '*' ∧
      first ≠ ch '&' ∧ first ≠ ch '/' ∧ first ≠ ch '%' ∧
      first ≠ ch '!' ∧ first ≠ ch '"' ∧ first ≠ ch '[' := by
    revert first
    decide
  have dispatch : (first = ch '+' || first = ch '-' || first = ch '.' || isdigit first) = true := by
    rcases numeric with digit | minus
    · simp [digit]
    · simp [minus]
  simp only [read, readFrom, get_at_cons]
  simp only [tests, notZero, decide_false, Bool.or_self, if_false, Bool.false_eq_true]
  rw [if_pos dispatch]

theorem numberToken_cons (c : Byte) (run more : Bytes)
    (digits : ∀ d ∈ run, isdigit d = true) (shape : NumberRest more) :
    numberToken (c :: (run ++ more)) = withName
        (if c = ch '0' ∧ run.all isOctalDigit then
          ⟨.eOctalNumber, c :: run⟩
        else ⟨.eDecimalNumber, c :: run⟩) more := by
  have noMinus : ch '-' ∉ run := by
    intro member
    have digit := digits _ member
    revert digit
    decide
  cases more with
  | nil =>
    have zeroOctal : isOctalDigit (ch '0') = true := by decide
    simp only [numberToken, append_nil, tail_cons, noMinus, if_false, head?_cons, Option.some.injEq,
      all_cons, withName]
    by_cases zero : c = ch '0'
    · simp [zero, zeroOctal]
    · simp [zero]
  | cons d more =>
    have minus : d = ch '-' := shape.start d rfl
    subst minus
    have inside : ch '-' ∈ (c :: (run ++ ch '-' :: more)).tail := by
      simp
    rw [numberToken, if_pos inside, withName, if_neg (cons_ne_nil _ _)]
    split <;> rfl

/-- A number is read as far as its word goes. -/
theorem read_numberWord {word : Bytes} (number : NumberWord word) (before rest : Bytes)
    (delimiter : isNameDelimiter stop = true) (notNul : stop ≠ 0) :
    ∃ before', read (at_ before (word ++ stop :: rest)) =
      (numberToken word, at_ before' (stop :: rest)) := by
  obtain ⟨c, tail, rfl, start⟩ := number.start
  have split := takeWhile_append_dropWhile (p := isdigit) (l := tail)
  set run := tail.takeWhile isdigit with runDef
  set more := tail.dropWhile isdigit with moreDef
  have digits : ∀ d ∈ run, isdigit d = true := fun d member =>
    mem_takeWhile_imp member
  have inTail : ∀ d ∈ more, isdigit d = true ∨ d = ch '-' := fun d member =>
    number.chars d (mem_cons_of_mem c (by
      rw [← split]
      exact mem_append_right run member))
  have shape : NumberRest more := by
    refine ⟨fun d head => ?_, inTail⟩
    have stops := head?_dropWhile_not isdigit tail
    rw [← moreDef, Option.mem_def.mp head] at stops
    have noDigit : isdigit d = false := by simpa using stops
    rcases inTail d (mem_of_mem_head? head) with digit | minus
    · rw [noDigit] at digit
      cases digit
    · exact minus
  have text : c :: tail ++ stop :: rest = c :: (run ++ (more ++ stop :: rest)) := by
    rw [← append_assoc, split, cons_append]
  have token := numberToken_cons c run more digits shape
  rw [split] at token
  rw [text, token]
  by_cases zero : c = ch '0'
  · subst zero
    obtain ⟨d, following, before', same, ends, result⟩ := finishNumber_at
      (if ch '0' = ch '0' ∧ run.all isOctalDigit then
        ⟨.eOctalNumber, ch '0' :: run⟩
      else ⟨.eDecimalNumber, ch '0' :: run⟩)
      shape (run.reverse ++ ch '0' :: before) rest delimiter notNul
    have octal := doReadOctalOrHex_digits run (ch '0' :: before) following digits ends
    have dispatch : ∀ rest : Bytes, read (at_ before (ch '0' :: rest)) =
        doReadZero (at_ (ch '0' :: before) rest) := fun _ => rfl
    refine ⟨before', ?_⟩
    rw [← result, dispatch, same, doReadZero, octal]
    by_cases allOctal : run.all isOctalDigit = true <;> simp [allOctal]
  · rw [if_neg (fun leading => zero leading.1)]
    obtain ⟨d, following, before', same, ends, result⟩ := finishNumber_at
      ⟨.eDecimalNumber, c :: run⟩ shape (run.reverse ++ c :: before) rest
      delimiter notNul
    have decimal : doReadNumber [] c
        (at_ (c :: before) (run ++ d :: following)) =
          (⟨.eDecimalNumber, c :: run⟩, d, at_ (d :: (run.reverse ++ c :: before)) following) := by
      rcases start with digit | ⟨rfl, e, tail', rfl, digit⟩
      · exact doReadNumber_digits [] run (c :: before) following digit digits ends
      · have runCons : run = e :: tail'.takeWhile isdigit := by
          rw [runDef, takeWhile_cons_of_pos digit]
        have run' : ∀ x ∈ tail'.takeWhile isdigit, isdigit x = true :=
          fun x member => mem_takeWhile_imp member
        rw [runCons]
        simpa using doReadNumber_minus (tail'.takeWhile isdigit)
          (ch '-' :: before) following digit run' ends
    have numeric : isdigit c = true ∨ c = ch '-' := number.chars c mem_cons_self
    refine ⟨before', ?_⟩
    rw [← result, read_signed numeric zero, same, doReadSigned, decimal]
    simp

theorem doReadDigits_end (text run before : Bytes) (digits : ∀ c ∈ run, isdigit c = true) :
    doReadDigits text (at_ before run) =
      (text ++ run, 0, ⟨run.reverse ++ before, [], true, true⟩) := by
  unfold doReadDigits
  rw [collect_at_all isdigit run before digits]
  rfl

theorem read_decimal_end {text : Bytes}
    (start : isdigit c = true ∨ (c = ch '-' ∧ ∃ d rest, text = d :: rest ∧ isdigit d = true))
    (notZero : c ≠ ch '0') (digits : ∀ d ∈ text, isdigit d = true) :
    ∃ s, read (at_ [] (c :: text)) = (⟨.eDecimalNumber, c :: text⟩, s) := by
  have nulTests : isNameDelimiter 0#8 = true ∧ 0#8 ≠ ch '.' ∧ toupper 0#8 ≠ ch 'E' := by
    decide
  obtain ⟨delimiter, noPoint, noE⟩ := nulTests
  have decimal : ∃ s, doReadNumber [] c (at_ [c] text) = (⟨.eDecimalNumber, c :: text⟩, 0, s) := by
    rcases start with digit | ⟨rfl, d, rest, rfl, digit⟩
    · obtain ⟨noPlus, noMinus, -, -⟩ := digit_tests digit
      have read := doReadDigits_end [c] text [c] digits
      refine ⟨⟨text.reverse ++ [c], [], true, true⟩, ?_⟩
      simp [doReadNumber, doReadExponent, noPlus, noMinus, digit, read, noPoint, noE]
    · have later := (forall_mem_cons.mp digits).2
      have read := doReadDigits_end [ch '-', d] rest [d, ch '-'] later
      refine ⟨⟨rest.reverse ++ [d, ch '-'], [], true, true⟩, ?_⟩
      simp [doReadNumber, doReadExponent, IStream.next, digit, read, noPoint, noE]
  obtain ⟨s, number⟩ := decimal
  have numeric : isdigit c = true ∨ c = ch '-' := start.imp_right fun minus => minus.1
  refine ⟨s, ?_⟩
  rw [read_signed numeric notZero, doReadSigned, number]
  simp [finishNumber, delimiter, putbackUnlessNul]

end AnythingToken

end Coast
