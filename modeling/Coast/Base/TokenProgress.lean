import Coast.Base.NumberTokens
import Coast.Base.TokenReads
import Coast.Library.TurnLoop

/-!
# Every token takes a character

The scanner puts characters back in several places; all in all every token
takes at least one character from the stream, unless the end of the text was
reached.
-/

namespace Coast

open Nat

namespace IStream

/-- The characters left when `c` was read ahead, where NUL stands for no
character. -/
def left (c : Byte) (s : IStream) : Nat := s.rest.length + if c = 0 then 0 else 1

theorem left_le (c : Byte) (s : IStream) : s.left c ≤ s.rest.length + 1 := by
  unfold left
  split <;> omega

theorem le_left (c : Byte) (s : IStream) : s.rest.length ≤ s.left c := le_add_right _ _

theorem left_zero (s : IStream) : s.left 0 = s.rest.length := rfl

theorem get_some {s after : IStream} {c : Byte} (got : s.get = (some c, after)) :
    after = at_ (c :: s.before) after.rest ∧ s.rest = c :: after.rest ∧ s.good = true := by
  unfold get at got
  by_cases good : s.good = true
  · rw [if_pos good] at got
    obtain ⟨before, rest, eof, fail⟩ := s
    obtain ⟨rfl, rfl⟩ : eof = false ∧ fail = false := by
      simpa [IStream.good] using good
    cases rest with
    | nil => cases got
    | cons d rest =>
      cases got
      exact ⟨rfl, rfl, good⟩
  · rw [if_neg good] at got
    cases got

theorem get_none {s after : IStream} (got : s.get = (none, after)) :
    after.fail = true ∧ after.rest = s.rest := by
  unfold get at got
  by_cases good : s.good = true
  · rw [if_pos good] at got
    obtain ⟨before, rest, eof, fail⟩ := s
    cases rest with
    | nil =>
      cases got
      exact ⟨rfl, rfl⟩
    | cons d rest => cases got
  · rw [if_neg good] at got
    cases got
    exact ⟨rfl, rfl⟩

theorem length_get_some {s after : IStream} {c : Byte} (got : s.get = (some c, after)) :
    after.rest.length + 1 = s.rest.length := by
  rw [(get_some got).2.1, List.length_cons]

theorem left_get (s : IStream) (c : Byte) :
    s.get.2.left (s.get.1.getD 0) ≤ s.rest.length ∧ s.get.2.rest.length ≤ s.rest.length ∧
      (s.get.2.putback (s.get.1.getD c)).rest.length ≤ s.rest.length := by
  cases got : s.get with
  | mk first after =>
    cases first with
    | none =>
      obtain ⟨failed, same⟩ := get_none got
      dsimp only [Option.getD_none]
      rw [left_zero, same]
      refine ⟨le_refl _, le_refl _, ?_⟩
      simp [putback, failed, same]
    | some d =>
      obtain ⟨reached, same, _⟩ := get_some got
      have one := length_get_some got
      have small := left_le d after
      refine ⟨by simp only [Option.getD_some]; omega, by dsimp only; omega, ?_⟩
      dsimp only [Option.getD_some]
      rw [reached, putback_at, same]
      exact le_refl _

theorem left_next (s : IStream) : s.next.2.left s.next.1 ≤ s.rest.length := (left_get s 0).1

theorem length_putback (s : IStream) (c : Byte) :
    (s.putback c).rest.length ≤ s.rest.length + 1 := by
  unfold putback
  dsimp only
  split
  · exact le_succ _
  · split
    · split
      · exact le_refl _
      · exact le_succ _
    · exact le_succ _

theorem length_putbackUnlessNul (s : IStream) (c : Byte) :
    (s.putbackUnlessNul c).rest.length ≤ s.left c := by
  unfold putbackUnlessNul left
  split
  · exact le_refl _
  · exact length_putback s c

variable (p : Byte → Bool)
include p

theorem length_collectFrom (before rest : Bytes) :
    (collectFrom p before rest).2.2.rest.length +
        (collectFrom p before rest).2.1.toList.length ≤ rest.length ∧
      (collectFrom p before rest).2.2.good = (collectFrom p before rest).2.1.isSome := by
  induction rest generalizing before with
  | nil => simp [collectFrom, good]
  | cons c rest ih =>
    unfold collectFrom
    split
    · obtain ⟨bound, stopped⟩ := ih (c :: before)
      dsimp only
      exact ⟨le_succ_of_le bound, stopped⟩
    · simp [at_, good]

theorem length_collect (s : IStream) :
    (s.collect p).2.2.rest.length + (s.collect p).2.1.toList.length ≤ s.rest.length ∧
      (s.collect p).2.2.good = (s.collect p).2.1.isSome := by
  unfold collect
  split
  · exact length_collectFrom p s.before s.rest
  · simp [good]

theorem length_collect_rest (s : IStream) : (s.collect p).2.2.rest.length ≤ s.rest.length :=
  le_of_add_right_le (length_collect p s).1

theorem left_collect (s : IStream) :
    (s.collect p).2.2.left ((s.collect p).2.1.getD 0) ≤ s.rest.length := by
  have bound := (length_collect p s).1
  cases stop : (s.collect p).2.1 with
  | none => exact length_collect_rest p s
  | some c =>
    rw [stop] at bound
    exact le_trans (left_le c _) bound

end IStream

open IStream

/-! ## Quoted strings -/

private theorem length_get_le (s : IStream) : s.get.2.rest.length ≤ s.rest.length :=
  (left_get s 0).2.1

private theorem length_get_putback (s : IStream) (c : Byte) :
    (s.get.2.putback (s.get.1.getD c)).rest.length ≤ s.rest.length :=
  (left_get s c).2.2

theorem length_intReadMasked (quote : Byte) (text : Bytes) (newlines : Nat) (s : IStream) :
    (intReadMasked quote text newlines s).2.2.rest.length ≤ s.rest.length := by
  have one := length_get_le s
  have two := (length_get_le s.get.2).trans one
  have twoBack := fun c => (length_get_putback s.get.2 c).trans one
  have three := (length_get_le s.get.2.get.2).trans two
  have threeBack := fun c => (length_get_putback s.get.2.get.2 c).trans two
  unfold intReadMasked
  dsimp only
  split
  · exact one
  split
  · split
    · split
      · exact threeBack 0
      · exact three
    · exact twoBack 0
  split
  · split
    · split
      · exact three
      · exact threeBack _
    · exact twoBack _
  split
  · exact one
  split
  · exact one
  split
  · split
    · exact twoBack _
    · exact two
  split
  · exact one
  · exact one

/-- A carriage return, with a newline behind it, counts as one newline. -/
def joinNewline (c : Byte) (s : IStream) : Byte × IStream :=
  if c = ch '\r' then
    let (got, s) := s.get
    let c := got.getD c
    if c ≠ ch '\n' then (ch '\n', s.putback c) else (c, s)
  else (c, s)

theorem length_joinNewline (c : Byte) (s : IStream) :
    (joinNewline c s).2.rest.length ≤ s.rest.length := by
  unfold joinNewline
  split
  · dsimp only
    split
    · exact length_get_putback s c
    · exact length_get_le s
  · exact le_refl _

/-- What one turn of the loop of `IntReadFrom` does with the text, the
newlines and the stream. -/
def intReadTurn (quote : Byte) (state : Bytes × Nat × IStream) :
    (Bytes × Int × IStream) ⊕ (Bytes × Nat × IStream) :=
  let (text, newlines, s) := state
  if !s.good then .inl (text, newlines, s)
  else
    let (got, s) := s.get
    let c := got.getD 0
    if c = quote || !s.good then .inl (text, newlines, s)
    else if c = ch '\\' then .inr (intReadMasked quote text newlines s)
    else
      let (c, s) := joinNewline c s
      if c = ch '\n' then .inl (text, -(newlines + 1 : Int), s)
      else .inr (text ++ [c], newlines, s)

theorem intReadLoop_succ (quote : Byte) (fuel : Nat) (state : Bytes × Nat × IStream) :
    intReadLoop quote (fuel + 1) state.1 state.2.1 state.2.2 =
      (intReadTurn quote state).elim (fun result => result)
        (fun next => intReadLoop quote fuel next.1 next.2.1 next.2.2) := by
  obtain ⟨text, newlines, s⟩ := state
  rw [intReadLoop]
  unfold intReadTurn
  dsimp only
  split
  · rfl
  split
  · rfl
  split
  · rfl
  · rw [apply_ite (Sum.elim _ _)]
    rfl

theorem length_intReadTurn (quote : Byte) (text : Bytes) (newlines : Nat) (s : IStream) :
    (intReadTurn quote (text, newlines, s)).elim
      (fun result => result.2.2.rest.length ≤ s.rest.length)
      (fun next => next.2.2.rest.length < s.rest.length) := by
  have read := length_get_le s
  unfold intReadTurn
  dsimp only
  split
  · exact le_refl _
  split
  · exact read
  rename_i goesOn
  have taken : s.get.2.rest.length < s.rest.length := by
    cases got : s.get with
    | mk first after =>
      cases first with
      | none =>
        obtain ⟨failed, _⟩ := get_none got
        rw [got] at goesOn
        simp [IStream.good, failed] at goesOn
      | some c => exact le_of_eq (length_get_some got)
  split
  · exact lt_of_le_of_lt (length_intReadMasked _ _ _ _) taken
  · have joined := length_joinNewline (s.get.1.getD 0) s.get.2
    split
    · exact joined.trans read
    · exact lt_of_le_of_lt joined taken

theorem intReadTurn_decreases (quote : Byte) :
    TurnLoop.Decreases (intReadTurn quote) fun state => state.2.2.rest.length := by
  rintro ⟨text, newlines, s⟩ next goesOn
  have smaller := length_intReadTurn quote text newlines s
  rw [goesOn] at smaller
  exact smaller

theorem intReadLoop_ends (quote : Byte) (fuel : Nat) (state : Bytes × Nat × IStream)
    (enough : state.2.2.rest.length < fuel) :
    TurnLoop.Ends (intReadTurn quote) state
      (intReadLoop quote fuel state.1 state.2.1 state.2.2) :=
  TurnLoop.ends_bounded (intReadTurn_decreases quote)
    (fun fuel state => intReadLoop quote fuel state.1 state.2.1 state.2.2)
    (intReadLoop_succ quote) fuel state enough

theorem length_of_intReadTurn_ends {quote : Byte} {state : Bytes × Nat × IStream}
    {result : Bytes × Int × IStream} (ends : TurnLoop.Ends (intReadTurn quote) state result) :
    result.2.2.rest.length ≤ state.2.2.rest.length := by
  induction ends with
  | @done state result last =>
    have bound := length_intReadTurn quote state.1 state.2.1 state.2.2
    rw [last] at bound
    exact bound
  | again goesOn _ ih =>
    exact ih.trans (le_of_lt (intReadTurn_decreases quote _ _ goesOn))

namespace AnythingToken

theorem length_doReadString {s after : IStream} {c : Byte} (got : s.get = (some c, after)) :
    (doReadString c after).2.rest.length ≤ after.rest.length := by
  obtain ⟨reached, same, _⟩ := get_some got
  have again : (after.putback c).get = (some c, after) := by
    rw [reached, putback_at, get_at_cons]
  have good : after.good = true := by
    rw [reached]
    rfl
  unfold doReadString intReadFrom
  dsimp only
  rw [again]
  simp only [good, Bool.not_true, Bool.false_and]
  exact length_of_intReadTurn_ends (intReadLoop_ends c _ ([], 0, after) (lt_succ_self _))

end AnythingToken

namespace AnythingToken

/-! ## Numbers and names -/

theorem left_doReadDigits (text : Bytes) (s : IStream) :
    (doReadDigits text s).2.2.left (doReadDigits text s).2.1 ≤ s.rest.length :=
  left_collect isdigit s

theorem left_doReadName (text : Bytes) (firstchar : Byte) (s : IStream) :
    (doReadName text firstchar s).2.2.left (doReadName text firstchar s).2.1 ≤ s.rest.length :=
  left_collect _ s

theorem left_readDigitsIf (present : Bool) (text : Bytes) (firstchar : Byte) (s : IStream) :
    (readDigitsIf present text firstchar s).2.2.left
        (readDigitsIf present text firstchar s).2.1 ≤ s.left firstchar ∧
      (present = true → (readDigitsIf present text firstchar s).2.2.left
          (readDigitsIf present text firstchar s).2.1 ≤ s.rest.length) := by
  have digits := left_doReadDigits (text ++ [firstchar]) s
  unfold readDigitsIf
  split
  · exact ⟨digits.trans (le_left _ _), fun _ => digits⟩
  · rename_i absent
    exact ⟨le_refl _, fun present => absurd present absent⟩

section

variable (text : Bytes)
include text

theorem left_readSign (firstchar : Byte) (s : IStream) :
    (readSign text firstchar s).2.2.left (readSign text firstchar s).2.1 ≤ s.left firstchar ∧
      ((firstchar = ch '+' || firstchar = ch '-') = true → (readSign text firstchar s).2.2.left
          (readSign text firstchar s).2.1 ≤ s.rest.length) ∧
      (¬ (firstchar = ch '+' || firstchar = ch '-') = true →
        (readSign text firstchar s).2 = (firstchar, s)) := by
  have following := left_next s
  unfold readSign
  split
  · rename_i signed
    exact ⟨following.trans (le_left _ _), fun _ => following,
      fun unsigned => absurd signed unsigned⟩
  · rename_i unsigned
    exact ⟨le_refl _, fun signed => absurd signed unsigned, fun _ => rfl⟩

theorem left_doReadExponent (firstchar : Byte) (s : IStream) :
    (doReadExponent text firstchar s).2.2.2.2.left
        (doReadExponent text firstchar s).2.1 ≤ s.left firstchar := by
  have mark := left_next s
  have afterMark : s.next.2.rest.length ≤ s.rest.length := (le_left _ _).trans mark
  have sign := (left_next s.next.2).trans afterMark
  have afterSign : s.next.2.next.2.rest.length ≤ s.rest.length := (le_left _ _).trans sign
  unfold doReadExponent
  split
  · refine le_trans ?_ (le_left firstchar s)
    dsimp only
    split
    · split
      · exact (left_collect isdigit _).trans afterSign
      · exact sign
    · split
      · exact (left_collect isdigit _).trans afterMark
      · exact mark
  · exact le_refl _

theorem left_numberInteger (firstchar : Byte) (s : IStream) :
    (numberInteger text firstchar s).2.2.left
        (numberInteger text firstchar s).2.1 ≤ s.left firstchar ∧
      ((firstchar = ch '+' || firstchar = ch '-' ||
          isdigit firstchar) = true →
        (numberInteger text firstchar s).2.2.left
          (numberInteger text firstchar s).2.1 ≤ s.rest.length) ∧
      (¬ (firstchar = ch '+' || firstchar = ch '-' ||
          isdigit firstchar) = true →
        (numberInteger text firstchar s).2 = (firstchar, s)) := by
  obtain ⟨signBound, signTaken, unsigned⟩ := left_readSign text firstchar s
  unfold numberInteger
  dsimp only
  generalize readSign text firstchar s = sign at *
  obtain ⟨bound, taken⟩ := left_readDigitsIf (isdigit sign.2.1) sign.1 sign.2.1 sign.2.2
  by_cases signed : (firstchar = ch '+' || firstchar = ch '-') = true
  · have start : (firstchar = ch '+' || firstchar = ch '-' || isdigit firstchar) = true := by
      rw [signed, Bool.true_or]
    exact ⟨bound.trans signBound, fun _ => bound.trans (signTaken signed),
      fun other => absurd start other⟩
  · have plain := unsigned signed
    rw [Bool.not_eq_true] at signed
    rw [signed, Bool.false_or]
    obtain ⟨text₁, c, s₁⟩ := sign
    cases plain
    refine ⟨bound, taken, fun noDigit => ?_⟩
    unfold readDigitsIf
    rw [if_neg noDigit]

theorem left_numberFraction (firstchar : Byte) (s : IStream) :
    (numberFraction text firstchar s).2.2.left
        (numberFraction text firstchar s).2.1 ≤ s.left firstchar ∧
      ((firstchar = ch '+' || firstchar = ch '-' || firstchar = ch '.' ||
          isdigit firstchar) = true →
        (numberFraction text firstchar s).2.2.left
          (numberFraction text firstchar s).2.1 ≤ s.rest.length) := by
  obtain ⟨integerBound, integerTaken, untouched⟩ := left_numberInteger text firstchar s
  unfold numberFraction
  dsimp only
  generalize numberInteger text firstchar s = integer at *
  obtain ⟨bound, taken⟩ := left_readDigitsIf (integer.2.1 = ch '.')
    integer.1 integer.2.1 integer.2.2
  refine ⟨bound.trans integerBound, fun start => ?_⟩
  by_cases number : (firstchar = ch '+' || firstchar = ch '-' || isdigit firstchar) = true
  · exact bound.trans (integerTaken number)
  · have plain := untouched number
    have point : firstchar = ch '.' := by
      simp only [Bool.or_eq_true, decide_eq_true_eq, not_or] at number start
      tauto
    rw [plain] at taken ⊢
    exact taken (decide_eq_true point)

theorem left_doReadNumber (firstchar : Byte) (s : IStream) :
    (doReadNumber text firstchar s).2.2.left
        (doReadNumber text firstchar s).2.1 ≤ s.left firstchar ∧
      ((firstchar = ch '+' || firstchar = ch '-' || firstchar = ch '.' ||
          isdigit firstchar) = true →
        (doReadNumber text firstchar s).2.2.left
          (doReadNumber text firstchar s).2.1 ≤ s.rest.length) := by
  by_cases good : s.good = true
  · rw [doReadNumber_of_good text firstchar good]
    obtain ⟨bound, taken⟩ := left_numberFraction text firstchar s
    unfold numberExponent
    dsimp only
    generalize numberFraction text firstchar s = fraction at *
    have exponentBound := left_doReadExponent fraction.1 fraction.2.1 fraction.2.2
    exact ⟨exponentBound.trans bound, fun start => exponentBound.trans (taken start)⟩
  · rw [doReadNumber_of_not_good text firstchar good]
    exact ⟨le_left _ _, fun _ => le_refl _⟩

end

theorem left_doReadOctalOrHex (s : IStream) :
    (doReadOctalOrHex s).2.2.left (doReadOctalOrHex s).2.1 ≤ s.rest.length := by
  have reads := left_get s
  unfold doReadOctalOrHex
  cases got : s.get with
  | mk first after =>
    rw [got] at reads
    cases first with
    | none => exact (reads 0).1
    | some c =>
      have one := length_get_some got
      have small : after.rest.length ≤ s.rest.length := (reads c).2.1
      have hex := (left_collect isxdigit after).trans small
      have octal := (left_collect isOctalDigit after).trans small
      dsimp only
      generalize after.collect isxdigit = hexDigits at *
      generalize after.collect isOctalDigit = octalDigits at *
      obtain ⟨_, hexStop, _⟩ := hexDigits
      obtain ⟨_, octalStop, _⟩ := octalDigits
      split
      · cases hexStop with
        | none => exact hex
        | some stop =>
          dsimp only
          split <;> exact hex
      · split
        · cases octalStop with
          | none => exact octal
          | some stop =>
            dsimp only
            split
            · exact (left_doReadNumber _ _ _).1.trans octal
            · exact octal
        · split
          · exact ((left_doReadNumber _ _ _).2 (by decide)).trans (reads c).2.2
          · exact (left_le c after).trans (le_of_eq one)

theorem length_finishNumber (named : Bool) (number : AnythingToken) (c : Byte) (s : IStream) :
    (finishNumber named number c s).2.rest.length ≤ s.left c := by
  unfold finishNumber
  split
  · exact (length_putbackUnlessNul _ _).trans
      ((left_doReadName number.text c s).trans (le_left c s))
  · exact length_putbackUnlessNul s c

theorem length_doReadZero (s : IStream) : (doReadZero s).2.rest.length ≤ s.rest.length :=
  (length_finishNumber _ _ _ _).trans (left_doReadOctalOrHex s)

theorem length_doReadSigned {firstchar : Byte}
    (start : (firstchar = ch '+' || firstchar = ch '-' ||
      firstchar = ch '.' || isdigit firstchar) = true) (s : IStream) :
    (doReadSigned firstchar s).2.rest.length ≤ s.rest.length :=
  (length_finishNumber _ _ _ _).trans ((left_doReadNumber [] firstchar s).2 start)

/-! ## The other tokens -/

theorem length_doReadReference (theToken : Tok) (s : IStream) :
    (doReadReference theToken s).2.rest.length ≤ s.rest.length := by
  unfold doReadReference
  cases got : s.get with
  | mk first after =>
    cases first with
    | none => exact le_of_eq (congrArg _ (get_none got).2)
    | some c =>
      have one := length_get_some got
      have small : after.rest.length ≤ s.rest.length := by omega
      dsimp only
      split
      · exact (length_doReadString got).trans small
      · split
        · exact ((length_putbackUnlessNul _ _).trans (left_doReadName [] c after)).trans small
        · exact (length_putbackUnlessNul _ _).trans ((left_le c after).trans (le_of_eq one))

theorem startsNumber_of_decimal {firstchar : Byte} {s : IStream} (good : s.good = true)
    (decimal : (doReadNumber [] firstchar s).1.token = .eDecimalNumber) :
    (firstchar = ch '+' || firstchar = ch '-' || firstchar = ch '.' ||
      isdigit firstchar) = true := by
  rw [doReadNumber_of_good [] firstchar good] at decimal
  have intpart := (numberTok_decimal decimal).1
  unfold readSign at intpart
  split at intpart
  · rename_i signed
    rw [signed, Bool.true_or, Bool.true_or]
  · rw [intpart, Bool.or_true]

theorem length_doReadObject (s : IStream) : (doReadObject s).2.rest.length ≤ s.rest.length := by
  have spaces := length_collect isspace s
  have ahead := left_collect isspace s
  unfold doReadObject
  dsimp only
  generalize s.collect isspace = skipped at *
  obtain ⟨_, stop, after⟩ := skipped
  have number := left_doReadNumber [] (stop.getD 0) after
  dsimp only at spaces ahead ⊢
  split
  · rename_i decimal
    cases stop with
    | none =>
      have bad : ¬ after.good = true := by
        rw [spaces.2]
        exact Bool.false_ne_true
      rw [doReadNumber_of_not_good [] _ bad] at decimal
      cases decimal
    | some c =>
      have taken := number.2 (startsNumber_of_decimal spaces.2 decimal)
      have back := length_putback (doReadNumber [] c after).2.2 (doReadNumber [] c after).2.1
      have small := le_left (doReadNumber [] c after).2.1 (doReadNumber [] c after).2.2
      have one : after.rest.length + 1 ≤ s.rest.length := spaces.1
      exact back.trans ((succ_le_succ (small.trans taken)).trans one)
  · have rest := (le_left _ _).trans (number.1.trans ahead)
    split
    · exact rest
    · exact (length_collect_rest _ _).trans rest

theorem length_splitSign (text : Bytes) : (splitSign text).2.length ≤ text.length := by
  unfold splitSign
  split
  · exact le_refl _
  · split
    · exact le_succ _
    · exact le_refl _

theorem length_extractLong (s : IStream) : (extractLong s).2.rest.length ≤ s.rest.length := by
  unfold extractLong
  split
  · exact le_refl _
  · have unspaced := (List.dropWhile_sublist (l := s.rest) isspace).length_le
    have unsigned := length_splitSign (s.rest.dropWhile isspace)
    have undigited := (List.dropWhile_sublist
      (l := (splitSign (s.rest.dropWhile isspace)).2) isdigit).length_le
    exact undigited.trans (unsigned.trans unspaced)

theorem length_readCount (s : IStream) (length : Int) :
    (readCount s length).2.rest.length ≤ s.rest.length := by
  unfold readCount IStream.readBytes
  split
  · exact le_refl _
  · split
    · exact (List.drop_sublist _ _).length_le
    · exact le_refl _

theorem length_skipToBracket (c : Byte) (s : IStream) :
    (skipToBracket c s).rest.length ≤ s.rest.length := by
  unfold skipToBracket
  split
  · exact le_refl _
  · exact length_collect_rest _ s

theorem length_doReadBinBuf (s : IStream) : (doReadBinBuf s).2.rest.length ≤ s.rest.length := by
  have extracted := length_extractLong s
  unfold doReadBinBuf
  dsimp only
  generalize extractLong s = read at *
  obtain ⟨length, after⟩ := read
  dsimp only at *
  have cleared :
      (if (!after.good) = true then after.clear else after).rest.length ≤ s.rest.length := by
    split <;> exact extracted
  generalize (if (!after.good) = true then after.clear else after) = ready at *
  have separator := ((le_left _ _).trans (left_next ready)).trans cleared
  have contents := (length_readCount ready.next.2 length).trans separator
  have closing := ((le_left _ _).trans
    (left_next (readCount ready.next.2 length).2)).trans contents
  split
  · exact (length_skipToBracket _ _).trans separator
  · split
    · exact (length_skipToBracket _ _).trans closing
    · exact closing

theorem length_skipToEOL (s : IStream) : (skipToEOL s).rest.length ≤ s.rest.length := by
  have line := length_collect_rest (fun c => !isEol c) s
  unfold skipToEOL
  split
  · rename_i collected
    rw [collected] at line
    exact line
  · rename_i after collected
    rw [collected] at line
    have back := length_get_putback after 0
    have ahead := length_get_le after
    generalize after.get = got at *
    obtain ⟨first, following⟩ := got
    cases first with
    | none => exact ahead.trans line
    | some crnl =>
      dsimp only
      split
      · exact back.trans line
      · exact ahead.trans line

/-! ## The loop of the constructor -/

def skipped (s : IStream) : Option IStream :=
  match s.get with
  | (none, _) => none
  | (some c, s) =>
    if c = ch '#' then some (skipToEOL s)
    else if isspace c then some s
    else none

def readTurn (s : IStream) : (AnythingToken × IStream) ⊕ IStream :=
  match skipped s with
  | some next => .inr next
  | none => .inl (readFrom 1 s)

theorem readFrom_succ (fuel : Nat) (s : IStream) :
    readFrom (fuel + 1) s =
      (readTurn s).elim (fun result => result) (fun next => readFrom fuel next) := by
  unfold readTurn skipped
  cases got : s.get with
  | mk first after =>
    cases first with
    | none =>
      simp only [readFrom, got]
      rfl
    | some c =>
      by_cases comment : c = ch '#'
      · subst comment
        simp only [readFrom, got]
        rfl
      · by_cases space : isspace c = true
        · have tests := space_tests c space
          simp [readFrom, got, tests, space]
        · simp only [readFrom, got, comment, space, if_false, Sum.elim_inl, Bool.false_eq_true]

theorem length_skipped {s next : IStream} (goesOn : skipped s = some next) :
    next.rest.length < s.rest.length := by
  unfold skipped at goesOn
  cases got : s.get with
  | mk first after =>
    rw [got] at goesOn
    cases first with
    | none => cases goesOn
    | some c =>
      have one := length_get_some got
      have line := length_skipToEOL after
      dsimp only at goesOn
      split at goesOn
      · cases goesOn
        omega
      · split at goesOn
        · cases goesOn
          omega
        · cases goesOn

theorem readTurn_decreases : TurnLoop.Decreases readTurn fun s => s.rest.length := by
  intro s next goesOn
  unfold readTurn at goesOn
  cases passed : skipped s with
  | none =>
    rw [passed] at goesOn
    cases goesOn
  | some after =>
    rw [passed] at goesOn
    cases goesOn
    exact length_skipped passed

theorem read_ends (s : IStream) : TurnLoop.Ends readTurn s (read s) :=
  TurnLoop.ends_bounded readTurn_decreases readFrom readFrom_succ _ s (lt_succ_self _)

private theorem length_ite {condition : Prop} [Decidable condition]
    {first second : AnythingToken × IStream} {bound : Nat}
    (firstBound : condition → first.2.rest.length ≤ bound)
    (secondBound : second.2.rest.length ≤ bound) :
    (if condition then first else second).2.rest.length ≤ bound := by
  split
  · rename_i holds
    exact firstBound holds
  · exact secondBound

theorem length_readFrom_one (s : IStream) :
    (readFrom 1 s).2.rest.length < s.rest.length ∨ (readFrom 1 s).1.token = .eNullSym ∧
        (readFrom 1 s).2.good = false ∧
        (readFrom 1 s).2.rest.length ≤ s.rest.length := by
  cases got : s.get with
  | mk first after =>
    cases first with
    | none =>
      right
      obtain ⟨failed, same⟩ := get_none got
      simp [readFrom, got, IStream.good, failed, same]
    | some c =>
      left
      have one := length_get_some got
      rw [readFrom, got, ← one, Nat.lt_succ_iff]
      refine length_ite (fun _ => le_refl _) ?_
      refine length_ite (fun _ => length_doReadObject after) ?_
      refine length_ite (fun _ => length_doReadReference _ after) ?_
      refine length_ite (fun _ => length_doReadReference _ after) ?_
      refine length_ite (fun _ => length_doReadReference _ after) ?_
      refine length_ite (fun _ => length_doReadString got) ?_
      refine length_ite (fun _ => length_doReadBinBuf after) ?_
      refine length_ite (fun _ => length_doReadZero after) ?_
      refine length_ite (fun start => length_doReadSigned start after) ?_
      refine length_ite (fun _ => length_skipToEOL after) ?_
      refine length_ite (fun _ => ?_) ?_
      · exact (length_putbackUnlessNul _ _).trans (left_doReadName [] c after)
      · exact length_ite (fun _ => le_refl _) (le_refl _)

/-- Every token takes at least one character, net of what is put back, unless
the end of the text was reached. -/
theorem read_progress (s : IStream) :
    (read s).2.rest.length < s.rest.length ∨
      (read s).1.token = .eNullSym ∧ (read s).2.good = false ∧
        (read s).2.rest.length ≤ s.rest.length := by
  have ends := read_ends s
  generalize read s = result at ends ⊢
  induction ends with
  | @done s result last =>
    unfold readTurn at last
    split at last
    · cases last
    · cases last
      exact length_readFrom_one s
  | again goesOn _ ih =>
    have smaller := readTurn_decreases _ _ goesOn
    rcases ih with taken | ⟨ended, bad, same⟩
    · exact Or.inl (taken.trans smaller)
    · exact Or.inr ⟨ended, bad, same.trans (le_of_lt smaller)⟩

end AnythingToken

end Coast
