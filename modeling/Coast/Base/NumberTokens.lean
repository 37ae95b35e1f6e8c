import Coast.Base.AnythingParser

/-!
# Tokens of numbers

What the texts of the decimal, octal and hexadecimal tokens look like, and
the conversion of these texts into a Long.
-/

namespace Coast

open List

namespace IStream

theorem collectFrom_word (p : Byte → Bool) :
    ∀ before rest, ∀ c ∈ (collectFrom p before rest).1, p c = true := by
  intro before rest
  induction rest generalizing before with
  | nil => simp [collectFrom]
  | cons first rest ih =>
    unfold collectFrom
    split
    · rename_i inside
      intro c member
      rcases mem_cons.mp member with rfl | later
      · exact inside
      · exact ih (first :: before) c later
    · simp

theorem collect_word (p : Byte → Bool) (s : IStream) : ∀ c ∈ (s.collect p).1, p c = true := by
  unfold collect
  split
  · exact collectFrom_word p s.before s.rest
  · simp

end IStream

namespace AnythingToken

def readSign (text : Bytes) (firstchar : Byte) (s : IStream) : Bytes × Byte × IStream :=
  if firstchar = ch '+' || firstchar = ch '-' then
    (text ++ [firstchar], s.next.1, s.next.2)
  else (text, firstchar, s)

/-- The character and the digits behind it, where `present` says so. -/
def readDigitsIf (present : Bool) (text : Bytes) (firstchar : Byte)
    (s : IStream) : Bytes × Byte × IStream :=
  if present then doReadDigits (text ++ [firstchar]) s
  else (text, firstchar, s)

def numberTok (intpart fraction echar exponent : Bool) : Tok :=
  if (!intpart && !fraction && !exponent) || (echar && !exponent) then
    .eError
  else if fraction || exponent then .eFloatNumber
  else .eDecimalNumber

section Parts

variable (text : Bytes) (firstchar : Byte) (s : IStream)

def numberInteger : Bytes × Byte × IStream :=
  let sign := readSign text firstchar s
  readDigitsIf (isdigit sign.2.1) sign.1 sign.2.1 sign.2.2

def numberFraction : Bytes × Byte × IStream :=
  let integer := numberInteger text firstchar s
  readDigitsIf (integer.2.1 = ch '.') integer.1 integer.2.1 integer.2.2

def numberExponent : Bytes × Byte × Bool × Bool × IStream :=
  let fraction := numberFraction text firstchar s
  doReadExponent fraction.1 fraction.2.1 fraction.2.2

end Parts

variable {s : IStream}

theorem doReadNumber_of_good (text : Bytes) (firstchar : Byte) (good : s.good = true) :
    doReadNumber text firstchar s = (⟨numberTok (isdigit (readSign text firstchar s).2.1)
          ((numberInteger text firstchar s).2.1 = ch '.') (numberExponent text firstchar s).2.2.1
          (numberExponent text firstchar s).2.2.2.1,
        (numberExponent text firstchar s).1⟩,
        (numberExponent text firstchar s).2.1,
        (numberExponent text firstchar s).2.2.2.2) := by
  unfold doReadNumber
  rw [if_pos good]
  split
  rename_i text₁ c₁ s₁ signRead
  have sign : readSign text firstchar s = (text₁, c₁, s₁) := signRead
  extract_lets intpart
  split
  rename_i text₂ c₂ s₂ integerRead
  have integer : numberInteger text firstchar s = (text₂, c₂, s₂) := by
    unfold numberInteger
    rw [sign]
    exact integerRead
  extract_lets hasFraction
  split
  rename_i text₃ c₃ s₃ fractionRead
  have fraction : numberFraction text firstchar s = (text₃, c₃, s₃) := by
    unfold numberFraction readDigitsIf
    rw [integer]
    simp only [decide_eq_true_eq]
    exact fractionRead
  split
  rename_i text₄ c₄ mark exponent s₄ exponentRead
  have all : numberExponent text firstchar s = (text₄, c₄, mark, exponent, s₄) := by
    unfold numberExponent
    rw [fraction]
    exact exponentRead
  rw [sign, integer, all]
  rfl

theorem doReadNumber_of_not_good (text : Bytes) (firstchar : Byte) (bad : ¬ s.good = true) :
    doReadNumber text firstchar s =
      (⟨if isdigit firstchar then .eDecimalNumber else .eError, text ++ [firstchar]⟩, 0, s) := by
  unfold doReadNumber
  rw [if_neg bad]

/-! ## The texts of numbers -/

def DecimalWord (text : Bytes) : Prop :=
  ∃ sign digits, text = sign ++ digits ∧ (sign = [] ∨ sign = [ch '+'] ∨ sign = [ch '-']) ∧
    digits ≠ [] ∧ ∀ c ∈ digits, isdigit c = true

/-- The text of a token of a number has the form that its kind says. -/
def WellShaped (tok : AnythingToken) : Prop :=
  match tok.token with
  | .eDecimalNumber => DecimalWord tok.text
  | .eOctalNumber => ∀ c ∈ tok.text, isBaseDigit 8 c = true
  | .eHexNumber => ∀ c ∈ tok.text, isxdigit c = true
  | _ => True

theorem numberTok_decimal {intpart fraction echar exponent : Bool}
    (decimal : numberTok intpart fraction echar exponent = .eDecimalNumber) :
    intpart = true ∧ fraction = false ∧ echar = false := by
  revert decimal
  cases intpart <;> cases fraction <;> cases echar <;> cases exponent <;> decide

theorem numberTok_cases (intpart fraction echar exponent : Bool) :
    numberTok intpart fraction echar exponent = .eDecimalNumber ∨
      numberTok intpart fraction echar exponent = .eFloatNumber ∨
      numberTok intpart fraction echar exponent = .eError := by
  cases intpart <;> cases fraction <;> cases echar <;> cases exponent <;> decide

theorem doReadExponent_of_noMark {text : Bytes} {c : Byte}
    (noMark : (doReadExponent text c s).2.2.1 = false) :
    (doReadExponent text c s).1 = text := by
  unfold doReadExponent at *
  split at noMark
  · dsimp only at noMark
    split at noMark <;> split at noMark <;> cases noMark
  · rename_i notMarked
    rw [if_neg notMarked]

theorem doReadNumber_decimal {text : Bytes} {firstchar : Byte}
    (digits : ∀ c ∈ text, isdigit c = true)
    (unsigned : text = [] ∨ ¬ (firstchar = ch '+' || firstchar = ch '-') = true)
    (decimal : (doReadNumber text firstchar s).1.token = .eDecimalNumber) :
    DecimalWord (doReadNumber text firstchar s).1.text := by
  by_cases good : s.good = true
  · rw [doReadNumber_of_good text firstchar good] at decimal ⊢
    obtain ⟨intpart, noFraction, noMark⟩ := numberTok_decimal decimal
    have fraction : numberFraction text firstchar s = numberInteger text firstchar s := by
      unfold numberFraction readDigitsIf
      dsimp only
      rw [noFraction, if_neg Bool.false_ne_true]
    have read : (numberExponent text firstchar s).1 = (readSign text firstchar s).1 ++
          ([(readSign text firstchar s).2.1] ++
            ((readSign text firstchar s).2.2.collect isdigit).1) := by
      unfold numberExponent at noMark ⊢
      rw [doReadExponent_of_noMark noMark, fraction]
      unfold numberInteger readDigitsIf
      rw [if_pos intpart, ← append_assoc]
      rfl
    have allDigits : ∀ c ∈ [(readSign text firstchar s).2.1] ++
        ((readSign text firstchar s).2.2.collect isdigit).1,
        isdigit c = true := by
      intro c member
      rcases mem_append.mp member with first | later
      · rw [mem_singleton.mp first]
        exact intpart
      · exact IStream.collect_word isdigit _ c later
    dsimp only
    rw [read]
    by_cases signed : (firstchar = ch '+' || firstchar = ch '-') = true
    · have empty : text = [] := unsigned.resolve_right (not_not_intro signed)
      refine ⟨(readSign text firstchar s).1, _, rfl, ?_, by simp, allDigits⟩
      unfold readSign
      rw [if_pos signed, empty]
      simp only [Bool.or_eq_true, decide_eq_true_eq] at signed
      rcases signed with rfl | rfl <;> simp
    · refine ⟨[], (readSign text firstchar s).1 ++ _, rfl, Or.inl rfl, by simp, ?_⟩
      intro c member
      rcases mem_append.mp member with first | later
      · unfold readSign at first
        rw [if_neg signed] at first
        exact digits c first
      · exact allDigits c later
  · rw [doReadNumber_of_not_good text firstchar good] at decimal ⊢
    have digit : isdigit firstchar = true := by
      by_contra notDigit
      rw [if_neg notDigit] at decimal
      cases decimal
    refine ⟨[], text ++ [firstchar], rfl, Or.inl rfl, by simp, ?_⟩
    intro c member
    rcases mem_append.mp member with first | last
    · exact digits c first
    · rw [mem_singleton.mp last]
      exact digit

theorem doReadNumber_token (text : Bytes) (firstchar : Byte) (s : IStream) :
    (doReadNumber text firstchar s).1.token = .eDecimalNumber ∨
      (doReadNumber text firstchar s).1.token = .eFloatNumber ∨
      (doReadNumber text firstchar s).1.token = .eError := by
  by_cases good : s.good = true
  · rw [doReadNumber_of_good text firstchar good]
    exact numberTok_cases _ _ _ _
  · rw [doReadNumber_of_not_good text firstchar good]
    split
    · exact Or.inl rfl
    · exact Or.inr (Or.inr rfl)

theorem wellShaped_doReadNumber {text : Bytes} {firstchar : Byte}
    (digits : ∀ c ∈ text, isdigit c = true)
    (unsigned : text = [] ∨ ¬ (firstchar = ch '+' || firstchar = ch '-') = true) :
    WellShaped (doReadNumber text firstchar s).1 := by
  unfold WellShaped
  rcases doReadNumber_token text firstchar s with decimal | other | other
  · rw [decimal]
    exact doReadNumber_decimal digits unsigned decimal
  · rw [other]
    trivial
  · rw [other]
    trivial

theorem wellShaped_of_token {tok : AnythingToken}
    (other : tok.token ≠ .eDecimalNumber ∧ tok.token ≠ .eOctalNumber ∧
      tok.token ≠ .eHexNumber) : WellShaped tok := by
  unfold WellShaped
  split
  · rename_i decimal
    exact absurd decimal other.1
  · rename_i octal
    exact absurd octal other.2.1
  · rename_i hex
    exact absurd hex other.2.2
  · trivial

theorem isdigit_of_isOctalDigit {c : Byte} (octal : isOctalDigit c = true) :
    isdigit c = true ∧ isBaseDigit 8 c = true := by
  revert c
  decide

theorem notSign_of_isDecimalMark {c : Byte} (mark : isDecimalMark c = true) :
    ¬ (c = ch '+' || c = ch '-') = true := by
  revert c
  decide

theorem wellShaped_doReadOctalOrHex (delimited : isNameDelimiter (doReadOctalOrHex s).2.1 = true) :
    WellShaped (doReadOctalOrHex s).1 := by
  have zero : isdigit (ch '0') = true ∧ isBaseDigit 8 (ch '0') = true := by decide
  unfold doReadOctalOrHex at delimited ⊢
  split
  · intro c member
    cases member
  · rename_i c s₁ got
    rw [got] at delimited
    dsimp only at delimited
    split
    · rename_i hexMark
      rw [if_pos hexMark] at delimited
      have hex := IStream.collect_word isxdigit s₁
      split
      rename_i digits stop s₂ collected
      rw [collected] at delimited hex
      split
      · exact hex
      · rename_i stop
        dsimp only at delimited
        split
        · rename_i following
          rw [if_pos following] at delimited
          simp [delimited] at following
        · exact hex
    · split
      · rename_i octalStart
        have octal := IStream.collect_word isOctalDigit s₁
        split
        rename_i digits stop s₂ collected
        rw [collected] at octal
        have all : ∀ d ∈ ch '0' :: c :: digits, isdigit d = true ∧ isBaseDigit 8 d = true := by
          intro d member
          rcases mem_cons.mp member with rfl | later
          · exact zero
          · rcases mem_cons.mp later with rfl | digit
            · exact isdigit_of_isOctalDigit octalStart
            · exact isdigit_of_isOctalDigit (octal d digit)
        split
        · exact fun d member => (all d member).2
        · split
          · rename_i mark
            exact wellShaped_doReadNumber (fun d member => (all d member).1)
              (Or.inr (notSign_of_isDecimalMark mark))
          · exact fun d member => (all d member).2
      · split
        · apply wellShaped_doReadNumber
          · intro d member
            cases member
          · exact Or.inl rfl
        · intro d member
          rw [mem_singleton.mp member]
          exact zero.2

theorem wellShaped_finishNumber {named : Bool} {number : AnythingToken}
    {c : Byte} (plain : named = false → WellShaped number) :
    WellShaped (finishNumber named number c s).1 := by
  unfold finishNumber
  split
  · trivial
  · rename_i notNamed
    exact plain (Bool.eq_false_iff.mpr notNamed)

theorem wellShaped_doReadZero (s : IStream) : WellShaped (doReadZero s).1 := by
  apply wellShaped_finishNumber
  intro delimited
  exact wellShaped_doReadOctalOrHex (by rwa [Bool.not_eq_false'] at delimited)

theorem wellShaped_doReadSigned (firstchar : Byte) (s : IStream) :
    WellShaped (doReadSigned firstchar s).1 := by
  apply wellShaped_finishNumber
  intro _
  apply wellShaped_doReadNumber
  · intro c member
    cases member
  · exact Or.inl rfl

theorem wellShaped_doReadReference {theToken : Tok} (s : IStream)
    (reference : theToken ≠ .eDecimalNumber ∧ theToken ≠ .eOctalNumber ∧ theToken ≠ .eHexNumber) :
    WellShaped (doReadReference theToken s).1 := by
  unfold doReadReference
  split
  · trivial
  · split
    · dsimp only
      split
      · trivial
      · exact wellShaped_of_token reference
    · split
      · exact wellShaped_of_token reference
      · trivial

theorem wellShaped_doReadBinBuf (s : IStream) : WellShaped (doReadBinBuf s).1 := by
  unfold doReadBinBuf
  dsimp only
  split <;> split
  · trivial
  · split <;> trivial
  · trivial
  · split <;> trivial

theorem wellShaped_doReadObject (s : IStream) : WellShaped (doReadObject s).1 := by
  unfold doReadObject
  dsimp only
  split
  · trivial
  · split <;> trivial

theorem wellShaped_doReadString (firstchar : Byte) (s : IStream) :
    WellShaped (doReadString firstchar s).1 := by
  unfold doReadString WellShaped
  dsimp only
  split <;> rename_i same
  all_goals first | trivial | (split at same <;> cases same)

private theorem wellShaped_ite {condition : Prop} [Decidable condition]
    {first second : AnythingToken × IStream}
    (firstShaped : WellShaped first.1) (secondShaped : WellShaped second.1) :
    WellShaped (if condition then first else second).1 := by
  split
  · exact firstShaped
  · exact secondShaped

theorem wellShaped_readFrom (fuel : Nat) (s : IStream) : WellShaped (readFrom fuel s).1 := by
  induction fuel generalizing s with
  | zero => trivial
  | succ fuel ih =>
    unfold readFrom
    split
    · trivial
    · rename_i c s₁ _
      refine wellShaped_ite (by trivial) ?_
      apply wellShaped_ite (wellShaped_doReadObject s₁)
      apply wellShaped_ite (wellShaped_doReadReference s₁ (by decide))
      apply wellShaped_ite (wellShaped_doReadReference s₁ (by decide))
      apply wellShaped_ite (wellShaped_doReadReference s₁ (by decide))
      apply wellShaped_ite (wellShaped_doReadString c s₁)
      apply wellShaped_ite (wellShaped_doReadBinBuf s₁)
      apply wellShaped_ite (wellShaped_doReadZero s₁)
      apply wellShaped_ite (wellShaped_doReadSigned c s₁)
      apply wellShaped_ite (ih (skipToEOL s₁))
      refine wellShaped_ite (by trivial) ?_
      apply wellShaped_ite (ih s₁)
      trivial

theorem wellShaped_read (s : IStream) : WellShaped (read s).1 := wellShaped_readFrom _ s

end AnythingToken

end Coast
