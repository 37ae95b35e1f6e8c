import Coast.Base.NumberTokens
import Mathlib.Data.List.Induction

/-!
# Numbers and the history of `errno`

`StrToL` and `StrToUL` take a number for out of range when `errno` is `ERANGE`
after the conversion, and nothing resets `errno` before it.
-/

namespace Coast

open List

def decimalValue (text : Bytes) : Int :=
  signed (splitSign text).1 (digitsValue 10 (splitSign text).2)

def numberValue (tok : AnythingToken) : Option Int :=
  match tok.token with
  | .eDecimalNumber => some (decimalValue tok.text)
  | .eOctalNumber => some (digitsValue 8 tok.text)
  | .eHexNumber => some (digitsValue 16 tok.text)
  | _ => none

theorem isBaseDigit_plain {base : Nat} {c : Byte} (digit : isBaseDigit base c = true) :
    isspace c = false ∧ c ≠ 0 ∧ ¬ (c = ch '-' || c = ch '+') = true := by
  have hex : isxdigit c = true := by
    unfold isBaseDigit at digit
    exact (Bool.and_eq_true_iff.mp digit).1
  clear digit
  revert c
  decide

theorem isBaseDigit_of_isxdigit {c : Byte} (hex : isxdigit c = true) : isBaseDigit 16 c = true := by
  revert c
  decide

theorem baseDigits_plain {base : Nat} {text : Bytes}
    (digits : ∀ c ∈ text, isBaseDigit base c = true) :
    cstr text = text ∧ text.dropWhile isspace = text ∧ splitSign text = ([], text) := by
  refine ⟨?_, ?_⟩
  · apply cstr_of_nulFree
    intro zero
    exact (isBaseDigit_plain (digits 0 zero)).2.1 rfl
  · cases text with
    | nil => exact ⟨rfl, rfl⟩
    | cons c text =>
      obtain ⟨visible, _, unsigned⟩ := isBaseDigit_plain (digits c mem_cons_self)
      exact ⟨dropWhile_isspace text visible, by
        rw [splitSign, if_neg unsigned]⟩

theorem strtoul_of_digits {base : Nat} {text : Bytes} {value : Int64}
    (digits : ∀ c ∈ text, isBaseDigit base c = true) (same : value.toInt = digitsValue base text) :
    strtoul base text = (value.toBitVec, false) := by
  have plain := baseDigits_plain digits
  have all : text.takeWhile (isBaseDigit base) = text := takeWhile_eq_self_iff.mpr digits
  have upper := Int64.toInt_lt value
  unfold strtoul
  rw [plain.1, plain.2.1, plain.2.2]
  simp only [all]
  have small : ¬ 2 ^ 64 ≤ digitsValue base text := by
    omega
  have positive : signed [] (digitsValue base text) = value.toInt := by
    rw [same]
    rfl
  rw [if_neg small, positive]
  exact congrArg (·, false) (BitVec.ofInt_toInt)

theorem strtol_of_decimalWord {text : Bytes} {value : Int64} (word : AnythingToken.DecimalWord text)
    (same : value.toInt = decimalValue text) :
    strtol text = (value, false) ∧ ∀ dflt, asLong text dflt = (value, false) := by
  obtain ⟨sign, digits, rfl, signs, nonempty, all⟩ := word
  have split : (sign ++ digits).dropWhile isspace = sign ++ digits ∧
      splitSign (sign ++ digits) = (sign, digits) := by
    rcases signs with rfl | rfl | rfl
    · cases digits with
      | nil => exact absurd rfl nonempty
      | cons c digits =>
        have digit := all c mem_cons_self
        have unsigned := splitSign_of_isdigit all [] nonempty
        rw [append_nil] at unsigned
        exact ⟨dropWhile_isspace digits (isspace_of_isdigit digit), unsigned⟩
    · exact ⟨dropWhile_isspace digits (by decide), rfl⟩
    · exact ⟨dropWhile_isspace digits (by decide), rfl⟩
  have shown : cstr (sign ++ digits) = sign ++ digits := by
    apply cstr_of_nulFree
    intro zero
    rcases mem_append.mp zero with inSign | inDigits
    · rcases signs with rfl | rfl | rfl
      · cases inSign
      · exact absurd (mem_singleton.mp inSign) (by decide)
      · exact absurd (mem_singleton.mp inSign) (by decide)
    · exact absurd (all 0 inDigits) (by decide)
  have run : digits.takeWhile isdigit = digits := takeWhile_eq_self_iff.mpr all
  have lower := Int64.le_toInt value
  have upper := Int64.toInt_lt value
  unfold decimalValue at same
  rw [split.2] at same
  have read : strtol (sign ++ digits) = (value, false) := by
    unfold strtol
    rw [shown, split.1, split.2]
    simp only [run, ← same]
    rw [if_neg (by omega), if_neg (by omega), Int64.ofInt_toInt]
  refine ⟨read, fun dflt => ?_⟩
  unfold asLong
  rw [shown, split.1, split.2]
  simp only [run, read]
  rw [if_neg (by simpa using nonempty)]

theorem asLong_digits {digits : Bytes} (nonempty : digits ≠ [])
    (all : ∀ c ∈ digits, isdigit c = true)
    (bounded : digitsValue 10 digits < 2 ^ 63) (dflt : Int64) :
    asLong digits dflt = (Int64.ofNat (digitsValue 10 digits), false) := by
  have value := Int64.toInt_ofNat_of_lt bounded
  have split := splitSign_of_isdigit all [] nonempty
  rw [append_nil] at split
  have word : AnythingToken.DecimalWord digits := ⟨[], digits, rfl, .inl rfl, nonempty, all⟩
  have same : (Int64.ofNat (digitsValue 10 digits)).toInt = decimalValue digits := by
    rw [decimalValue, split, value]
    rfl
  exact (strtol_of_decimalWord word same).2 dflt

/-! ## Octal and hex texts in base ten -/

theorem digitsValue_snoc (base : Nat) (text : Bytes) (c : Byte) :
    digitsValue base (text ++ [c]) = base * digitsValue base text + (hexValue c).toNat := by
  rw [digitsValue, foldl_append]
  rfl

theorem digitsValue_mono {base base' : Nat} (le : base ≤ base') (text : Bytes) :
    digitsValue base text ≤ digitsValue base' text := by
  induction text using List.reverseRec with
  | nil => exact Nat.le_refl _
  | append_singleton text c ih =>
    rw [digitsValue_snoc, digitsValue_snoc]
    exact Nat.add_le_add_right (Nat.mul_le_mul le ih) _

theorem digitsValue_eq_zero {base base' : Nat} (positive : 0 < base) {text : Bytes}
    (zero : digitsValue base text = 0) : digitsValue base' text = 0 := by
  induction text using List.reverseRec with
  | nil => rfl
  | append_singleton text c ih =>
    rw [digitsValue_snoc] at zero ⊢
    obtain ⟨front, last⟩ := Nat.add_eq_zero_iff.mp zero
    rw [ih ((Nat.mul_eq_zero.mp front).resolve_left (Nat.ne_of_gt positive)), last,
      Nat.mul_zero]

theorem digitsValue_le_append {base : Nat} (positive : 0 < base) (text behind : Bytes) :
    digitsValue base text ≤ digitsValue base (text ++ behind) := by
  induction behind using List.reverseRec with
  | nil => rw [append_nil]
  | append_singleton behind c ih =>
    rw [← append_assoc, digitsValue_snoc]
    have more := Nat.le_mul_of_pos_left (digitsValue base (text ++ behind)) positive
    omega

theorem hexValue_lt_of_isdigit {c : Byte} (digit : isdigit c = true) : (hexValue c).toNat < 10 := by
  revert c
  decide

theorem isdigit_iff_hexValue_lt {c : Byte} (hex : isxdigit c = true) :
    isdigit c = true ↔ (hexValue c).toNat < 10 := by
  revert c
  decide

/-- A text of digits has one value in two bases if and only if it is one
digit behind zeros. -/
theorem digitsValue_eq_iff {base base' : Nat} (less : base < base') {text : Bytes} {c : Byte}
    (digit : (hexValue c).toNat < base) :
    digitsValue base (text ++ [c]) = digitsValue base' (text ++ [c]) ↔
      digitsValue base (text ++ [c]) < base := by
  have le := digitsValue_mono (Nat.le_of_lt less) text
  have zeros := @digitsValue_eq_zero base base' (by omega) text
  rw [digitsValue_snoc, digitsValue_snoc]
  by_cases zero : digitsValue base text = 0
  · rw [zero, zeros zero]
    omega
  · have positive := Nat.pos_of_ne_zero zero
    have first := Nat.mul_le_mul_left base le
    have second : base * digitsValue base' text < base' * digitsValue base' text :=
      Nat.mul_lt_mul_of_pos_right less (Nat.lt_of_lt_of_le positive le)
    have third := Nat.le_mul_of_pos_right base positive
    omega

/-- A hex text with a letter in it has more in base 16 than `strtol` reads. -/
theorem digitsValue_lt_of_letter {front behind : Bytes} {c : Byte}
    (letter : 10 ≤ (hexValue c).toNat) :
    digitsValue 10 front < digitsValue 16 (front ++ c :: behind) := by
  have whole := digitsValue_le_append (by decide : 0 < 16) (front ++ [c]) behind
  have mono := digitsValue_mono (by decide : 10 ≤ 16) front
  rw [digitsValue_snoc, append_assoc, singleton_append] at whole
  omega

theorem asLong_of_digits {base : Nat} {text : Bytes} (digits : ∀ c ∈ text, isBaseDigit base c = true)
    (value : Int64) :
    (∀ dflt, asLong text dflt = (value, false)) ↔
      text.takeWhile isdigit ≠ [] ∧ value.toInt = digitsValue 10 (text.takeWhile isdigit) := by
  have plain := baseDigits_plain digits
  have reads (dflt : Int64) : asLong text dflt =
      if text.takeWhile isdigit = [] then (dflt, false)
      else if (2 : Int) ^ 63 ≤ digitsValue 10 (text.takeWhile isdigit) then (Int64.maxValue, true)
      else (Int64.ofInt (digitsValue 10 (text.takeWhile isdigit)), false) := by
    unfold asLong strtol
    rw [plain.1, plain.2.1, plain.2.2]
    have plus : signed [] (digitsValue 10 (text.takeWhile isdigit)) =
        digitsValue 10 (text.takeWhile isdigit) := rfl
    simp only [List.isEmpty_iff, plus]
    rw [if_neg (show ¬ (digitsValue 10 (text.takeWhile isdigit) : Int) < -2 ^ 63 by omega)]
  simp only [reads]
  by_cases empty : text.takeWhile isdigit = []
  · refine iff_of_false (fun always => ?_) fun both => both.1 empty
    have zero := always 0
    have one := always 1
    rw [if_pos empty] at zero one
    exact absurd (zero.trans one.symm) (by decide)
  · simp only [if_neg empty]
    rw [and_iff_right empty]
    by_cases large : (2 : Int) ^ 63 ≤ digitsValue 10 (text.takeWhile isdigit)
    · have upper := Int64.toInt_lt value
      refine iff_of_false (fun always => ?_) fun same => ?_
      · have never := always 0
        rw [if_pos large] at never
        cases never
      · omega
    · rw [if_neg large]
      have inRange : (Int64.ofInt (digitsValue 10 (text.takeWhile isdigit))).toInt =
          digitsValue 10 (text.takeWhile isdigit) :=
        Int64.toInt_ofInt_of_le (by omega) (by omega)
      constructor
      · intro always
        rw [← (Prod.mk.inj (always 0)).1, inRange]
      · intro same dflt
        rw [← same, Int64.ofInt_toInt]

theorem asLong_octal_iff {text : Bytes} (digits : ∀ c ∈ text, isBaseDigit 8 c = true)
    {value : Int64} (same : value.toInt = digitsValue 8 text) :
    (∀ dflt, asLong text dflt = (value, false)) ↔ text ≠ [] ∧ value.toInt < 8 := by
  have all : text.takeWhile isdigit = text := by
    refine takeWhile_eq_self_iff.mpr fun c member => ?_
    have digit := Bool.and_eq_true_iff.mp (digits c member)
    exact (isdigit_iff_hexValue_lt digit.1).mpr (by have := of_decide_eq_true digit.2; omega)
  rw [asLong_of_digits digits, all, same]
  refine and_congr_right fun nonempty => ?_
  rcases eq_nil_or_concat' text with rfl | ⟨front, c, rfl⟩
  · exact absurd rfl nonempty
  · have digit := of_decide_eq_true (Bool.and_eq_true_iff.mp (digits c (by simp))).2
    have bases := @digitsValue_eq_iff 8 10 (by decide) front c digit
    have le := digitsValue_mono (by decide : 8 ≤ 10) (front ++ [c])
    omega

theorem asLong_hex_iff {text : Bytes} (digits : ∀ c ∈ text, isxdigit c = true)
    {value : Int64} (same : value.toInt = digitsValue 16 text) :
    (∀ dflt, asLong text dflt = (value, false)) ↔ text ≠ [] ∧ value.toInt < 10 := by
  rw [asLong_of_digits fun c member => isBaseDigit_of_isxdigit (digits c member), same]
  by_cases all : text.takeWhile isdigit = text
  · rw [all]
    refine and_congr_right fun nonempty => ?_
    rcases eq_nil_or_concat' text with rfl | ⟨front, c, rfl⟩
    · exact absurd rfl nonempty
    · have digit := hexValue_lt_of_isdigit (takeWhile_eq_self_iff.mp all c (by simp))
      have bases := @digitsValue_eq_iff 10 16 (by decide) front c digit
      have le := digitsValue_mono (by decide : 10 ≤ 16) (front ++ [c])
      omega
  · -- a letter stops `strtol` and makes the value ten at least
    have split := takeWhile_append_dropWhile (p := isdigit) (l := text)
    rcases rest : text.dropWhile isdigit with _ | ⟨c, behind⟩
    · rw [rest, append_nil] at split
      exact absurd split all
    · have stops : isdigit c = false := by
        have head := head?_dropWhile_not isdigit text
        rw [rest] at head
        simpa using head
      rw [rest] at split
      have member : c ∈ text := split ▸ mem_append_right _ mem_cons_self
      have letter : 10 ≤ (hexValue c).toNat := by
        have notDigit := (isdigit_iff_hexValue_lt (digits c member)).not.mp (by simp [stops])
        omega
      have less := @digitsValue_lt_of_letter (text.takeWhile isdigit) behind c letter
      have tail := digitsValue_le_append (by decide : 0 < 16) (text.takeWhile isdigit ++ [c]) behind
      rw [digitsValue_snoc, append_assoc, singleton_append, split] at tail
      rw [split] at less
      omega

/-- `MakeSimpleAny` makes a Long with this value of the token. -/
def MakesLong (env : ParserEnv) (tok : AnythingToken) (st : ParseState) (value : Int64) : Prop :=
  let (_, any, st) := makeSimpleAny env tok st
  st.heap.impl any = some (.long value)

theorem makeNumber_iff (st : ParseState) (impl : AnyImpl) :
    (makeNumber st false impl).2.heap.impl (makeNumber st false impl).1 = some impl ↔
      st.erange = false := by
  unfold makeNumber ParseState.checkErrno
  cases stale : st.erange with
  | true => simp [Heap.impl]
  | false => simp [ParseState.alloc, Heap.alloc, Heap.impl_alloc]

theorem makesLong_number {env : ParserEnv} {tok : AnythingToken} {value : Int64}
    (shaped : tok.WellShaped) (number : numberValue tok = some value.toInt) (st : ParseState) :
    MakesLong env tok st value ↔ st.erange = false := by
  obtain ⟨kind, text⟩ := tok
  unfold numberValue at number
  unfold AnythingToken.WellShaped at shaped
  unfold MakesLong makeSimpleAny
  cases kind with
  | eDecimalNumber =>
    have read := (strtol_of_decimalWord shaped (Option.some.inj number).symm).1
    dsimp only at read ⊢
    rw [read]
    exact makeNumber_iff st (.long value)
  | eOctalNumber =>
    have read := strtoul_of_digits shaped (Option.some.inj number).symm
    dsimp only
    rw [read]
    exact makeNumber_iff st (.long value)
  | eHexNumber =>
    have base : ∀ c ∈ text, isBaseDigit 16 c = true :=
      fun c member => isBaseDigit_of_isxdigit (shaped c member)
    have read := strtoul_of_digits base (Option.some.inj number).symm
    dsimp only
    rw [read]
    exact makeNumber_iff st (.long value)
  | eNullSym | eFloatNumber | eString | eBinaryBuf | eIndex | eRef
  | eInclude | eObject | eStringError | eError | char => cases number

/-- `AsLong` reads every number in base ten: it gives the value of an octal or
hex number only for a single digit. -/
def ReadsInBaseTen (tok : AnythingToken) (value : Int64) : Prop :=
  match tok.token with
  | .eOctalNumber => tok.text ≠ [] ∧ value.toInt < 8
  | .eHexNumber => tok.text ≠ [] ∧ value.toInt < 10
  | _ => True

theorem asLong_number_iff {tok : AnythingToken} {value : Int64}
    (shaped : tok.WellShaped) (number : numberValue tok = some value.toInt) :
    (∀ dflt, asLong tok.text dflt = (value, false)) ↔ ReadsInBaseTen tok value := by
  obtain ⟨kind, text⟩ := tok
  unfold numberValue at number
  unfold AnythingToken.WellShaped at shaped
  unfold ReadsInBaseTen
  cases kind with
  | eDecimalNumber =>
    exact iff_true_intro (strtol_of_decimalWord shaped (Option.some.inj number).symm).2
  | eOctalNumber => exact asLong_octal_iff shaped (Option.some.inj number).symm
  | eHexNumber => exact asLong_hex_iff shaped (Option.some.inj number).symm
  | eNullSym | eFloatNumber | eString | eBinaryBuf | eIndex | eRef
  | eInclude | eObject | eStringError | eError | char => cases number

/-- The next token is a number that fits a Long: the parser makes this Long of
it exactly when `errno` was not `ERANGE` before; `AsLong` of its text gives it,
whatever `errno` was, exactly when base ten reads the same value. -/
theorem makesLong_iff (env : ParserEnv) (st : ParseState) (value : Int64)
    (number : numberValue st.token.1 = some value.toInt) :
    (MakesLong env st.token.1 st.token.2 value ∧
      ∀ dflt, asLong st.token.1.text dflt = (value, false)) ↔
      st.erange = false ∧ ReadsInBaseTen st.token.1 value := by
  have shaped : st.token.1.WellShaped := AnythingToken.wellShaped_read st.stream
  exact and_congr (makesLong_number shaped number st.token.2) (asLong_number_iff shaped number)

/-- What the system gives when there are no files and no numbers with a
fraction. -/
def bareEnv : ParserEnv := ⟨fun _ => none, fun _ => none⟩

theorem makesLong_five :
    (MakesLong bareEnv ⟨.eDecimalNumber, lit "5"⟩
        (ParseState.token ⟨IStream.ofText (lit "5"), false, [], []⟩).2 5 ∧
      ∀ dflt, asLong (lit "5") dflt = (5, false)) := by
  have token : (ParseState.token
      ⟨IStream.ofText (lit "5"), false, [], []⟩).1 =
      ⟨.eDecimalNumber, lit "5"⟩ := by
    decide +kernel
  have both := (makesLong_iff bareEnv
    ⟨IStream.ofText (lit "5"), false, [], []⟩ 5 (by decide +kernel)).mpr
    ⟨rfl, by rw [token]; trivial⟩
  rw [token] at both
  exact both

/-- `AsLong` of an overlong text leaves `ERANGE` behind, and the number that
is imported next is lost. -/
theorem not_importText_afterAsLong :
    ¬ ∀ (env : ParserEnv) (earlier text : Bytes),
      importText env 0 (asLong earlier 0).2 text = importText env 0 false text := by
  intro same
  exact absurd (same bareEnv (lit "99999999999999999999") (lit "5")) (by decide +kernel)

end Coast
