import Coast.Base.StringIO

/-!
# URL coding

`urlEncode` writes the characters that a URL must not show as `%XX`;
`urlDecode` reads `%XX` and `%uXXXX` and, by default, takes a `+` for a blank.
-/

namespace Coast

open List

namespace URLUtils

inductive URLCheckStatus
  | eOk
  | eSuspiciousChar
deriving DecidableEq, Repr

/-- The characters that `DoUrlEncode` escapes unless they are excluded. -/
def isProblematic (c : Byte) : Bool :=
  c ≤ 0x20 || 0x7F ≤ c || c = ch '"' || c = ch '#' || c = ch '%' ||
    c = ch ';' || c = ch '<' || c = ch '>' || c = ch '?' || c = ch '[' ||
    c = ch '\\' || c = ch ']' || c = ch '^' || c = ch '`' || c = ch '\x7b' ||
    c = ch '/' || c = ch '\x7d' || c = ch '~'

/-- `DoUrlEncode`: the result and what is appended to `encoded`.  With
`doCheck` the first character to escape ends the loop. -/
def doUrlEncode (exclusionSet : Bytes) (doCheck : Bool) : Bytes → Bool × Bytes
  | [] => (true, [])
  | c :: str =>
    if isProblematic c && !exclusionSet.contains c then
      if doCheck then (false, [])
      else
        let (valid, encoded) := doUrlEncode exclusionSet doCheck str
        (valid, ch '%' :: (appendAsHex c ++ encoded))
    else
      let (valid, encoded) := doUrlEncode exclusionSet doCheck str
      (valid, c :: encoded)

def urlEncode (str exclusionSet : Bytes) : Bytes := (doUrlEncode exclusionSet false str).2

def checkUrlEncoding (str exclusionSet : Bytes) : Bool :=
  (doUrlEncode (exclusionSet ++ lit "%;?/") true str).1

def blankForPlus (c : Byte) : Byte := if c = ch '+' then ch ' ' else c

def convert (str : Bytes) : Bytes := str.map blankForPlus

/-- `DecodeSpecialChars` at the position where `str` begins: the character
to take and how far the position moves. -/
def decodeSpecialChars (str : Bytes) (c : Byte) (offset : Nat) : Byte × Nat :=
  let next := str.getD offset 0
  if offset < str.length &&
      (next = ch ' ' || next = ch '"' || next = ch '%' || next = ch '&' ||
        next = ch '?' || next = ch '/') then
    (next, offset)
  else (c, 0)

/-- What one turn of the loop of `urlDecode` does. -/
structure DecodedTurn where
  appended : Bytes
  suspicious : Bool
  moved : Nat

/-- One turn of the decoder: what it appends, and how far it moves. -/
def urlDecodeTurn (str : Bytes) : DecodedTurn :=
  let c := str.getD 0 0
  if c = ch '%' then
    if 1 < str.length && (str.getD 1 0 = ch 'u' || str.getD 1 0 = ch 'U') then
      if 5 < str.length && isxdigit (str.getD 2 0) &&
          isxdigit (str.getD 3 0) && isxdigit (str.getD 4 0) &&
          isxdigit (str.getD 5 0) then
        if str.getD 2 0 = ch '0' && str.getD 3 0 = ch '0' then
          ⟨[twoHexAsChar (str.getD 4 0) (str.getD 5 0)], false, 5⟩
        else ⟨[], true, 5⟩
      else
        let (c, moved) := decodeSpecialChars str c 2
        ⟨[c], false, moved⟩
    else if 2 < str.length && isxdigit (str.getD 1 0) &&
        isxdigit (str.getD 2 0) then
      ⟨[twoHexAsChar (str.getD 1 0) (str.getD 2 0)], false, 2⟩
    else
      let (c, moved) := decodeSpecialChars str c 1
      ⟨[c], false, moved⟩
  else ⟨[c], false, 0⟩

/-- The turns of the decoder, with the worst status of all. -/
def urlDecodeLoop : Bytes → Bytes × URLCheckStatus
  | [] => ([], .eOk)
  | c :: str =>
    let turn := urlDecodeTurn (c :: str)
    let (res, status) := urlDecodeLoop (str.drop turn.moved)
    (turn.appended ++ res, if turn.suspicious then .eSuspiciousChar else status)
termination_by str => str.length
decreasing_by
  simp only [length_drop, length_cons]
  omega

def urlDecodeChecked (instr : Bytes) (replacePlusByBlank : Bool) : Bytes × URLCheckStatus :=
  let str := if replacePlusByBlank then convert instr else instr
  if !instr.contains (ch '%') then (str, .eOk)
  else urlDecodeLoop str

def urlDecode (instr : Bytes) (replacePlusByBlank : Bool) : Bytes :=
  (urlDecodeChecked instr replacePlusByBlank).1

example :
    urlDecode (lit "I+am+a+%u002B (plus),+not a space!") true =
      lit "I am a + (plus), not a space!" := by
  decide +kernel

/-! ## Decoding what was encoded -/

@[simp]
theorem urlDecodeLoop_nil : urlDecodeLoop [] = ([], .eOk) := by
  rw [urlDecodeLoop]

theorem urlDecodeLoop_cons (c : Byte) (str : Bytes) :
    urlDecodeLoop (c :: str) = ((urlDecodeTurn (c :: str)).appended ++
          (urlDecodeLoop (str.drop (urlDecodeTurn (c :: str)).moved)).1,
        if (urlDecodeTurn (c :: str)).suspicious then .eSuspiciousChar
        else (urlDecodeLoop (str.drop (urlDecodeTurn (c :: str)).moved)).2) := by
  rw [urlDecodeLoop]

theorem urlDecodeLoop_plain {c : Byte} (plain : c ≠ ch '%') (str : Bytes) :
    urlDecodeLoop (c :: str) = (c :: (urlDecodeLoop str).1, (urlDecodeLoop str).2) := by
  rw [urlDecodeLoop_cons]
  simp [urlDecodeTurn, plain]

private theorem hexDigit_notU (c : Byte) :
    hexDigit (c.toNat / 16) ≠ ch 'u' ∧ hexDigit (c.toNat / 16) ≠ ch 'U' := by
  revert c
  decide +kernel

theorem urlDecodeLoop_escaped (c : Byte) (str : Bytes) :
    urlDecodeLoop (ch '%' :: (appendAsHex c ++ str)) =
      (c :: (urlDecodeLoop str).1, (urlDecodeLoop str).2) := by
  rcases hexDigits_read c with ⟨highHex, lowHex, value⟩
  rcases hexDigit_notU c with ⟨notSmallU, notCapitalU⟩
  rw [urlDecodeLoop_cons]
  simp [urlDecodeTurn, appendAsHex, highHex, lowHex, value, notSmallU, notCapitalU]

private theorem convert_appendAsHex (c : Byte) : convert (appendAsHex c) = appendAsHex c := by
  revert c
  decide +kernel

theorem convert_append (left right : Bytes) :
    convert (left ++ right) = convert left ++ convert right :=
  map_append

theorem isProblematic_percent : isProblematic (ch '%') = true := by
  decide

theorem isProblematic_plus : isProblematic (ch '+') = false := by
  decide

variable {exclusionSet : Bytes}

theorem urlEncode_escaped {c : Byte}
    (escaped : (isProblematic c && !exclusionSet.contains c) = true) (str : Bytes) :
    urlEncode (c :: str) exclusionSet =
      ch '%' :: (appendAsHex c ++ urlEncode str exclusionSet) := by
  simp only [urlEncode, doUrlEncode, escaped, if_true, Bool.false_eq_true, if_false]

theorem urlEncode_plain {c : Byte}
    (plain : ¬ (isProblematic c && !exclusionSet.contains c) = true) (str : Bytes) :
    urlEncode (c :: str) exclusionSet = c :: urlEncode str exclusionSet := by
  simp only [urlEncode, doUrlEncode, plain]
  rfl

theorem urlDecodeLoop_convert_urlEncode (percentEscaped : ch '%' ∉ exclusionSet) (s : Bytes) :
    urlDecodeLoop (convert (urlEncode s exclusionSet)) = (convert s, .eOk) := by
  induction s with
  | nil => exact urlDecodeLoop_nil
  | cons c s ih =>
    by_cases escaped : (isProblematic c && !exclusionSet.contains c) = true
    · have notPlus : c ≠ ch '+' := by
        rintro rfl
        simp [isProblematic_plus] at escaped
      have kept : blankForPlus c = c := if_neg notPlus
      have text : convert (urlEncode (c :: s) exclusionSet) =
          ch '%' :: (appendAsHex c ++ convert (urlEncode s exclusionSet)) := by
        rw [urlEncode_escaped escaped, convert, map_cons,
          ← convert, convert_append, convert_appendAsHex]
        rfl
      rw [text, urlDecodeLoop_escaped, ih, convert, convert, map_cons, kept]
    · have notPercent : c ≠ ch '%' := by
        rintro rfl
        exact escaped (by simp [isProblematic_percent, percentEscaped])
      have stillPlain : blankForPlus c ≠ ch '%' := by
        unfold blankForPlus
        split
        · decide
        · exact notPercent
      rw [urlEncode_plain escaped, convert, map_cons, urlDecodeLoop_plain stillPlain, ← convert, ih]
      rfl

theorem urlEncode_eq_self {s : Bytes} (noPercent : ch '%' ∉ urlEncode s exclusionSet) :
    urlEncode s exclusionSet = s := by
  induction s with
  | nil => rfl
  | cons c s ih =>
    by_cases escaped : (isProblematic c && !exclusionSet.contains c) = true
    · rw [urlEncode_escaped escaped] at noPercent
      exact absurd (mem_cons_self) noPercent
    · rw [urlEncode_plain escaped] at noPercent ⊢
      rw [ih (not_mem_of_not_mem_cons noPercent)]

theorem urlDecode_urlEncode (percentEscaped : ch '%' ∉ exclusionSet) (s : Bytes) :
    urlDecode (urlEncode s exclusionSet) true = convert s := by
  unfold urlDecode urlDecodeChecked
  by_cases noPercent : ch '%' ∈ urlEncode s exclusionSet
  · simp [noPercent, urlDecodeLoop_convert_urlEncode percentEscaped]
  · have unchanged := urlEncode_eq_self noPercent
    rw [unchanged] at noPercent ⊢
    simp [noPercent]

theorem convert_eq_self_iff (s : Bytes) : convert s = s ↔ ch '+' ∉ s := by
  induction s with
  | nil => simp [convert]
  | cons c s ih =>
    have blankDiffers : ch ' ' ≠ ch '+' := by decide
    have head : blankForPlus c = c ↔ ch '+' ≠ c := by
      unfold blankForPlus
      split
      · rename_i isPlus
        simp [isPlus, blankDiffers]
      · rename_i notPlus
        simpa using fun same => notPlus same.symm
    rw [convert, map_cons, List.cons.injEq, ← convert, ih, head, mem_cons, not_or]

/-- With the default arguments the round trip gives `s` back exactly when `s`
has no `+`: the encoder leaves it as it is, the decoder reads it as a
blank. -/
theorem urlDecode_urlEncode_iff (s : Bytes) : urlDecode (urlEncode s []) true = s ↔ ch '+' ∉ s := by
  rw [urlDecode_urlEncode (not_mem_nil), convert_eq_self_iff]

theorem not_urlDecode_urlEncode_plus : ¬ ∀ s : Bytes, urlDecode (urlEncode s []) true = s := by
  intro roundTrip
  exact absurd (roundTrip (lit "+")) (by decide +kernel)

end URLUtils

end Coast
