import Coast.Base.AnythingParser
import Coast.Io.URLUtils

/-!
# Numeric character references

`HTMLEscape` writes every byte that is no letter and no digit as `&#ddd;`;
`HTMLDecode` reads decimal and hexadecimal references.
-/

namespace Coast

open List

namespace URLUtils

def htmlEscapeByte (work : Byte) : Bytes :=
  if isalnum work then [work]
  else lit "&#" ++ decimalText work.toNat ++ lit ";"

def htmlEscape : Bytes → Bytes
  | [] => []
  | work :: toEscape => htmlEscapeByte work ++ htmlEscape toEscape

def strChr (text : Bytes) (c : Byte) : Option Nat := text.findIdx? (· = c)

def extractDecimal (str : Bytes) (delta : Nat) : Bytes :=
  let value := (asLong ((str.drop 2).take (delta - 2)) 0).1
  if value ≤ 255 then [BitVec.ofInt 8 value.toInt] else []

def extractHex (str : Bytes) (delta : Nat) : Bytes :=
  [twoHexAsChar (str.getD (delta - 2) 0) (str.getD (delta - 1) 0)]

def isHexReference (str : Bytes) (delta : Nat) : Bool :=
  (str.getD 2 0 = ch 'x' || str.getD 2 0 = ch 'X') && ((str.drop 3).take (delta - 3)).all isxdigit

def isDecimalReference (str : Bytes) (delta : Nat) : Bool :=
  ((str.drop 2).take (delta - 2)).all isdigit

/-- The character of a reference of so many bytes, if it is one. -/
def decodeReference (str : Bytes) (delta : Nat) : Bytes :=
  if delta = 7 then
    if isHexReference str delta && str.getD 3 0 = ch '0' &&
        str.getD 4 0 = ch '0' then
      extractHex str delta
    else []
  else if delta = 6 then
    if isHexReference str delta then
      if str.getD 3 0 = ch '0' then extractHex str delta else []
    else if isDecimalReference str delta then extractDecimal str delta
    else []
  else if delta = 5 then
    if isHexReference str delta then extractHex str delta
    else if isDecimalReference str delta then extractDecimal str delta
    else []
  else if delta = 4 then
    if isHexReference str delta then
      [twoHexAsChar (ch '0') (str.getD 3 0)]
    else if isDecimalReference str delta then extractDecimal str delta
    else []
  else if delta = 3 then
    if isDecimalReference str delta then extractDecimal str delta else []
  else []

/-- `DecodeSpecialHTMLChars` at the position where `str` begins: what is
appended and how far the position moves. -/
def decodeSpecialHTMLChars (str : Bytes) : Bytes × Nat :=
  match strChr str (ch ';') with
  | none => ([str.getD 0 0], 0)
  | some delta =>
    if str.getD 0 0 ≠ ch '&' || str.getD 1 0 ≠ ch '#' || 7 < delta then
      ([str.getD 0 0], 0)
    else (decodeReference str delta, delta)

/-- The scanner moves on by what one turn has decoded. -/
def htmlDecodeLoop : Bytes → Bytes
  | [] => []
  | c :: str =>
    let (appended, moved) := decodeSpecialHTMLChars (c :: str)
    appended ++ htmlDecodeLoop (str.drop moved)
termination_by str => str.length
decreasing_by
  simp only [length_drop, length_cons]
  omega

/-- Without any `&` every turn takes the whole text. -/
def htmlDecode (instr : Bytes) : Bytes :=
  if !instr.contains (ch '&') then instr else htmlDecodeLoop instr

example : htmlDecode (lit "&#60;a&#x3e;&#38;amp;") = lit "<a>&amp;" := by
  decide +kernel

/-! ## Decoding what was escaped -/

theorem htmlDecodeLoop_cons (c : Byte) (str : Bytes) :
    htmlDecodeLoop (c :: str) = (decodeSpecialHTMLChars (c :: str)).1 ++
        htmlDecodeLoop (str.drop (decodeSpecialHTMLChars (c :: str)).2) := by
  rw [htmlDecodeLoop]

theorem htmlDecodeLoop_plain {c : Byte} (plain : c ≠ ch '&') (str : Bytes) :
    htmlDecodeLoop (c :: str) = c :: htmlDecodeLoop str := by
  have turn : decodeSpecialHTMLChars (c :: str) = ([c], 0) := by
    unfold decodeSpecialHTMLChars
    split
    · rfl
    · simp [plain]
  rw [htmlDecodeLoop_cons, turn]
  rfl

theorem htmlDecode_eq (instr : Bytes) : htmlDecode instr = htmlDecodeLoop instr := by
  have unchanged : ∀ text : Bytes, ch '&' ∉ text → htmlDecodeLoop text = text := by
    intro text plain
    induction text with
    | nil => rw [htmlDecodeLoop]
    | cons c text ih =>
      have head : c ≠ ch '&' := fun same => plain (by simp [same])
      rw [htmlDecodeLoop_plain head, ih (not_mem_of_not_mem_cons plain)]
  unfold htmlDecode
  by_cases plain : ch '&' ∈ instr
  · simp [plain]
  · simp [plain, unchanged instr plain]

private theorem digits_of_byte (work : Byte) : ((decimalText work.toNat).length = 1 ∨
      (decimalText work.toNat).length = 2 ∨ (decimalText work.toNat).length = 3) ∧
    (decimalText work.toNat).all isdigit = true ∧
    (asLong (decimalText work.toNat) 0).1 ≤ 255 ∧
    BitVec.ofInt 8 (asLong (decimalText work.toNat) 0).1.toInt = work := by
  revert work
  decide +kernel

private theorem semicolon_of_digits {digits : Bytes}
    (all : digits.all isdigit = true) (str : Bytes) :
    strChr (lit "&#" ++ digits ++ lit ";" ++ str) (ch ';') = some (digits.length + 2) := by
  have noSemicolon : ∀ c : Byte, isdigit c = true → c ≠ ch ';' := by
    decide
  have inner : (digits ++ (lit ";" ++ str)).findIdx? (· = ch ';') = some digits.length := by
    induction digits with
    | nil => rfl
    | cons c digits ih =>
      obtain ⟨head, tail⟩ := Bool.and_eq_true_iff.mp ((all_cons).symm.trans all)
      rw [cons_append, findIdx?_cons, ih tail]
      simp [noSemicolon c head]
  unfold strChr
  rw [append_assoc, append_assoc]
  change (ch '&' :: ch '#' :: (digits ++ (lit ";" ++ str))).findIdx? _ = _
  rw [findIdx?_cons, findIdx?_cons, inner]
  rfl

private theorem decodeReference_decimal {digits : Bytes} {delta : Nat}
    (all : digits.all isdigit = true) (short : digits.length = 1 ∨
      digits.length = 2 ∨ digits.length = 3)
    (ends : delta = digits.length + 2) (str : Bytes) :
    decodeReference (lit "&#" ++ digits ++ lit ";" ++ str) delta =
      if (asLong digits 0).1 ≤ 255 then
        [BitVec.ofInt 8 (asLong digits 0).1.toInt]
      else [] := by
  have body : ((lit "&#" ++ digits ++ lit ";" ++ str).drop 2).take (delta - 2) = digits := by
    rw [ends, Nat.add_sub_cancel, append_assoc, append_assoc]
    exact take_left
  have decimal : isDecimalReference (lit "&#" ++ digits ++ lit ";" ++ str) delta = true := by
    rw [isDecimalReference, body, all]
  have notHex : isHexReference (lit "&#" ++ digits ++ lit ";" ++ str) delta = false := by
    have noX : ∀ c : Byte, isdigit c = true → c ≠ ch 'x' ∧ c ≠ ch 'X' := by
      decide
    cases digits with
    | nil => simp at short
    | cons c digits =>
      obtain ⟨head, -⟩ := Bool.and_eq_true_iff.mp ((all_cons).symm.trans all)
      have second : (lit "&#" ++ c :: digits ++ lit ";" ++ str).getD 2 0 = c := rfl
      rw [isHexReference, second]
      simp [noX c head]
  have extracted : extractDecimal (lit "&#" ++ digits ++ lit ";" ++ str)
      delta = if (asLong digits 0).1 ≤ 255 then
        [BitVec.ofInt 8 (asLong digits 0).1.toInt] else [] := by
    rw [extractDecimal, body]
  rcases short with one | two | three
  · obtain rfl : delta = 3 := by omega
    simp only [decodeReference, decimal, extracted, Nat.reduceEqDiff, if_false, if_true]
  · obtain rfl : delta = 4 := by omega
    simp only [decodeReference, notHex, decimal, extracted,
      Nat.reduceEqDiff, Bool.false_eq_true, if_false, if_true]
  · obtain rfl : delta = 5 := by omega
    simp only [decodeReference, notHex, decimal, extracted,
      Nat.reduceEqDiff, Bool.false_eq_true, if_false, if_true]

theorem htmlDecodeLoop_reference (work : Byte) (str : Bytes) :
    htmlDecodeLoop (lit "&#" ++ decimalText work.toNat ++ lit ";" ++ str) =
      work :: htmlDecodeLoop str := by
  obtain ⟨short, all, small, value⟩ := digits_of_byte work
  have turn : decodeSpecialHTMLChars
      (lit "&#" ++ decimalText work.toNat ++ lit ";" ++ str) =
        ([work], (decimalText work.toNat).length + 2) := by
    have length : ¬ 7 < (decimalText work.toNat).length + 2 := by omega
    have first : (lit "&#" ++ decimalText work.toNat ++ lit ";" ++ str).getD 0 0 = ch '&' := rfl
    have second : (lit "&#" ++ decimalText work.toNat ++ lit ";" ++ str).getD 1 0 = ch '#' := rfl
    have decoded := decodeReference_decimal all short rfl str
    rw [if_pos small, value] at decoded
    simp only [decodeSpecialHTMLChars, semicolon_of_digits all, first, second, decoded, length,
      ne_eq, not_true_eq_false, decide_false, Bool.or_self, Bool.false_eq_true, if_false]
  have loop := htmlDecodeLoop_cons (ch '&') (ch '#' :: (decimalText work.toNat ++ (lit ";" ++ str)))
  have same : lit "&#" ++ decimalText work.toNat ++ lit ";" ++ str =
      ch '&' :: ch '#' :: (decimalText work.toNat ++ (lit ";" ++ str)) := by
    rw [append_assoc, append_assoc]
    rfl
  rw [same] at turn ⊢
  rw [loop, turn]
  -- what is skipped is the `#`, the digits and the semicolon
  have skipped : (ch '#' :: (decimalText work.toNat ++
      (lit ";" ++ str))).drop ((decimalText work.toNat).length + 2) = str := by
    have after : (decimalText work.toNat ++ (lit ";" ++ str)).drop
        (decimalText work.toNat).length = lit ";" ++ str := drop_left
    rw [drop_succ_cons, ← drop_drop, after]
    rfl
  rw [skipped]
  rfl

/-- Every text comes back, also one that looks like references itself. -/
theorem htmlDecode_htmlEscape (s : Bytes) : htmlDecode (htmlEscape s) = s := by
  rw [htmlDecode_eq]
  induction s with
  | nil => rw [htmlEscape, htmlDecodeLoop]
  | cons work s ih =>
    rw [htmlEscape, htmlEscapeByte]
    by_cases plain : isalnum work = true
    · have noAmpersand : work ≠ ch '&' := by
        rintro rfl
        exact absurd plain (by decide)
      rw [if_pos plain, singleton_append, htmlDecodeLoop_plain noAmpersand, ih]
    · rw [if_neg plain, htmlDecodeLoop_reference, ih]

end URLUtils

end Coast
