import Coast.Base.IStream

/-!
# Quoted strings

`String::IntPrintOn` writes a string between quotes with masked characters,
`String::IntReadFrom` reads it back.
-/

namespace Coast

open List

def maskedChar (quote c : Byte) : Bytes :=
  if !isprint c then
    if c = ch '\n' then lit "\\n"
    else lit "\\x" ++ appendAsHex c
  else if c = quote || c = ch '\\' then [ch '\\', c]
  else [c]

/-- `String::IntPrintOn`.  Without a quote character the string is written as
a C string. -/
def intPrintOn (quote : Byte) (s : Bytes) : Bytes :=
  if quote = 0 then cstr s
  else quote :: (s.flatMap (maskedChar quote) ++ [quote])

def hexValue (c : Byte) : Byte :=
  if isdigit c then c - ch '0'
  else if ch 'a' ≤ c then c - (ch 'a' - 10)
  else c - (ch 'A' - 10)

def twoHexAsChar (high low : Byte) : Byte := 16 * hexValue high + hexValue low

def isOctalDigit (c : Byte) : Bool := ch '0' ≤ c && c ≤ ch '7'

/-- The part of `String::IntReadFrom` behind a backslash: the text and the
newline count after it.  A `get` that fails leaves its variable unchanged. -/
def intReadMasked (quote : Byte) (text : Bytes) (newlines : Nat)
    (s : IStream) : Bytes × Nat × IStream :=
  let (got, s) := s.get
  let c := got.getD (ch '\\')
  if c = ch '\\' || c = quote then (text ++ [c], newlines, s)
  else if c = ch 'x' then
    let (got, s) := s.get
    let h0 := got.getD 0
    if isxdigit h0 then
      let (got, s) := s.get
      let h1 := got.getD 0
      if !isxdigit h1 then
        (text ++ [twoHexAsChar (ch '0') h0], newlines, s.putback h1)
      else (text ++ [twoHexAsChar h0 h1], newlines, s)
    else (text ++ lit "\\x", newlines, s.putback h0)
  else if isOctalDigit c then
    let value := c - ch '0'
    let (got, s) := s.get
    let c := got.getD c
    if isOctalDigit c then
      let value := value * 8 + (c - ch '0')
      let (got, s) := s.get
      let c := got.getD c
      if isOctalDigit c then
        (text ++ [value * 8 + (c - ch '0')], newlines, s)
      else (text ++ [value], newlines, s.putback c)
    else (text ++ [value], newlines, s.putback c)
  else if c = ch 'n' then (text ++ [ch '\n'], newlines, s)
  else if c = ch 'r' then (text ++ [ch '\r'], newlines, s)
  else if c = ch '\r' then
    let (got, s) := s.get
    let c := got.getD c
    (text, newlines + 1, if c ≠ ch '\n' then s.putback c else s)
  else if c = ch '\n' then (text, newlines + 1, s)
  else (text ++ [ch '\\', c], newlines, s)

/-- The loop of `String::IntReadFrom`: the text read and the returned newline
count, negative when an unmasked newline ended the string.  Every turn takes
a character from the stream, so the characters left bound the fuel. -/
def intReadLoop (quote : Byte) : Nat → Bytes → Nat → IStream → Bytes × Int × IStream
  | 0, text, newlines, s => (text, newlines, s)
  | fuel + 1, text, newlines, s =>
    if !s.good then (text, newlines, s)
    else
      let (got, s) := s.get
      let c := got.getD 0
      if c = quote || !s.good then (text, newlines, s)
      else if c = ch '\\' then
        let (text, newlines, s) := intReadMasked quote text newlines s
        intReadLoop quote fuel text newlines s
      else
        let (c, s) :=
          if c = ch '\r' then
            let (got, s) := s.get
            let c := got.getD c
            if c ≠ ch '\n' then (ch '\n', s.putback c) else (c, s)
          else (c, s)
        if c = ch '\n' then (text, -(newlines + 1 : Int), s)
        else intReadLoop quote fuel (text ++ [c]) newlines s

def intReadFrom (quote : Byte) (s : IStream) : Bytes × Int × IStream :=
  let (got, s) := s.get
  let c := got.getD 0
  let s := if !s.good && c ≠ quote then s.clear.putback c else s
  intReadLoop quote (s.rest.length + 1) [] 0 s

/-- A quote character that no mask uses for itself. -/
structure IsQuote (quote : Byte) : Prop where
  notNul : quote ≠ 0
  notBackslash : quote ≠ ch '\\'
  notN : quote ≠ ch 'n'
  notX : quote ≠ ch 'x'

/-- The masks of a character begin with a backslash, and `n` or `x` behind it
has a meaning: a quote character that is one of them is taken for itself. -/
structure Unmixed (quote c : Byte) : Prop where
  backslash : quote = ch '\\' → isprint c = true ∧ c ≠ ch '\\'
  newline : quote = ch 'n' → c ≠ ch '\n'
  hex : quote = ch 'x' → isprint c = true ∨ c = ch '\n'

theorem IsQuote.unmixed {quote : Byte} (quoting : IsQuote quote) (c : Byte) : Unmixed quote c :=
  ⟨fun same => absurd same quoting.notBackslash, fun same => absurd same quoting.notN,
    fun same => absurd same quoting.notX⟩

theorem isQuote_doubleQuote : IsQuote (ch '"') := ⟨by decide, by decide, by decide, by decide⟩

theorem hexDigits_read (c : Byte) :
    isxdigit (hexDigit (c.toNat / 16)) = true ∧ isxdigit (hexDigit (c.toNat % 16)) = true ∧
      twoHexAsChar (hexDigit (c.toNat / 16)) (hexDigit (c.toNat % 16)) = c := by
  revert c
  decide +kernel

theorem intReadLoop_maskedChar {quote c : Byte} (unmixed : Unmixed quote c)
    (fuel : Nat) (text : Bytes) (newlines : Nat) (before rest : Bytes) :
    ∃ before', intReadLoop quote (fuel + 1) text newlines
        (IStream.at_ before (maskedChar quote c ++ rest)) =
      intReadLoop quote fuel (text ++ [c]) newlines (IStream.at_ before' rest) := by
  unfold maskedChar
  by_cases printable : isprint c = true
  · by_cases special : c = quote ∨ c = ch '\\'
    · refine ⟨c :: ch '\\' :: before, ?_⟩
      have backslashNotQuote : ch '\\' ≠ quote := fun same =>
        (unmixed.backslash same.symm).2 (special.elim (·.trans same.symm) id)
      have masked : c = ch '\\' ∨ c = quote := special.symm
      simp [printable, special, intReadLoop, intReadMasked, masked, backslashNotQuote]
    · refine ⟨c :: before, ?_⟩
      have notQuote : c ≠ quote := fun same => special (Or.inl same)
      have notBackslash : c ≠ ch '\\' := fun same => special (Or.inr same)
      have notReturn : c ≠ ch '\r' := by
        rintro rfl
        revert printable
        decide
      have notNewline : c ≠ ch '\n' := by
        rintro rfl
        revert printable
        decide
      simp [printable, intReadLoop, notQuote, notBackslash, notReturn, notNewline]
  · have backslashNotQuote : ch '\\' ≠ quote := fun same =>
      printable (unmixed.backslash same.symm).1
    by_cases newline : c = ch '\n'
    · have nNotQuote : ch 'n' ≠ quote := fun same => unmixed.newline same.symm newline
      subst newline
      refine ⟨ch 'n' :: ch '\\' :: before, ?_⟩
      simp [show isprint (ch '\n') = false by decide, show lit "\\n" = [ch '\\', ch 'n'] by decide,
        show isOctalDigit (ch 'n') = false by decide,
        show ch 'n' ≠ ch '\\' by decide, show ch 'n' ≠ ch 'x' by decide,
        intReadLoop, intReadMasked, backslashNotQuote, nNotQuote]
    · have xNotQuote : ch 'x' ≠ quote := fun same =>
        (unmixed.hex same.symm).elim printable newline
      obtain ⟨highHex, lowHex, value⟩ := hexDigits_read c
      refine ⟨hexDigit (c.toNat % 16) :: hexDigit (c.toNat / 16) :: ch 'x' :: ch '\\' :: before, ?_⟩
      simp [printable, newline, appendAsHex, show lit "\\x" = [ch '\\', ch 'x'] by decide,
        show ch 'x' ≠ ch '\\' by decide,
        intReadLoop, intReadMasked, backslashNotQuote, xNotQuote,
        highHex, lowHex, value]

theorem intReadLoop_masked {quote : Byte} (rest : Bytes) :
    ∀ (s text : Bytes) (newlines fuel : Nat) (before : Bytes),
      s.length < fuel → (∀ c ∈ s, Unmixed quote c) →
      ∃ before', intReadLoop quote fuel text newlines
          (IStream.at_ before
            (s.flatMap (maskedChar quote) ++ quote :: rest)) =
        (text ++ s, (newlines : Int), IStream.at_ before' rest)
  | [], text, newlines, fuel + 1, before, _, _ => by
      refine ⟨quote :: before, ?_⟩
      simp [intReadLoop]
  | c :: s, text, newlines, fuel + 1, before, enough, unmixed => by
      rw [forall_mem_cons] at unmixed
      rw [flatMap_cons, append_assoc]
      obtain ⟨next, step⟩ := intReadLoop_maskedChar unmixed.1 fuel text
        newlines before (s.flatMap (maskedChar quote) ++ quote :: rest)
      obtain ⟨before', tail⟩ := intReadLoop_masked rest s (text ++ [c]) newlines fuel next
        (by simpa using enough) unmixed.2
      refine ⟨before', ?_⟩
      rw [step, tail, append_assoc]
      rfl

/-! ## What is read is never taken back -/

theorem intReadMasked_appends (quote : Byte) (text : Bytes) (newlines : Nat) (s : IStream) :
    text <+: (intReadMasked quote text newlines s).1 := by
  simp only [intReadMasked]
  split_ifs <;> simp

theorem intReadLoop_appends (quote : Byte) (fuel : Nat) :
    ∀ (text : Bytes) (newlines : Nat) (s : IStream),
      text <+: (intReadLoop quote fuel text newlines s).1 := by
  induction fuel with
  | zero => exact fun text newlines s => prefix_rfl
  | succ fuel ih =>
    intro text newlines s
    rw [intReadLoop]
    dsimp only
    split_ifs
    · exact prefix_rfl
    · exact prefix_rfl
    · exact (intReadMasked_appends quote text newlines _).trans (ih _ _ _)
    all_goals first | exact prefix_rfl | exact ( prefix_append text [_]).trans (ih _ _ _)

theorem intReadLoop_mixed {quote c : Byte} (mixed : ¬ Unmixed quote c)
    (fuel : Nat) (text : Bytes) (newlines : Nat) (before rest : Bytes) :
    (intReadLoop quote (fuel + 1) text newlines
        (IStream.at_ before (maskedChar quote c ++ rest))).1 = text ∨
      ∃ other, other ≠ c ∧ text ++ [other] <+: (intReadLoop quote (fuel + 1) text newlines
        (IStream.at_ before (maskedChar quote c ++ rest))).1 := by
  by_cases backslash : quote = ch '\\' ∧ ¬ (isprint c = true ∧ c ≠ ch '\\')
  · left
    rcases backslash with ⟨rfl, masked⟩
    have front : ∃ mask, maskedChar (ch '\\') c = ch '\\' :: mask := by
      rw [maskedChar]
      split
      · split
        · exact ⟨_, rfl⟩
        · exact ⟨_, rfl⟩
      · rw [if_pos (by simp_all)]
        exact ⟨_, rfl⟩
    rcases front with ⟨mask, front⟩
    simp [front, intReadLoop]
  · right
    by_cases newline : quote = ch 'n' ∧ c = ch '\n'
    · rcases newline with ⟨rfl, rfl⟩
      refine ⟨ch 'n', by decide, ?_⟩
      simpa [show maskedChar (ch 'n') (ch '\n') = [ch '\\', ch 'n'] by decide, intReadLoop,
        intReadMasked, show ch '\\' ≠ ch 'n' by decide] using intReadLoop_appends _ fuel _ _ _
    · have hex : quote = ch 'x' ∧ isprint c = false ∧ c ≠ ch '\n' := by
        by_contra others
        refine mixed ⟨fun same => ?_, fun same => ?_, fun same => ?_⟩
        · exact by_contra fun masked => backslash ⟨same, masked⟩
        · exact fun isNewline => newline ⟨same, isNewline⟩
        · exact or_iff_not_imp_left.mpr fun notPrintable =>
            by_contra fun notNewline => others ⟨same, by simpa using notPrintable, notNewline⟩
      rcases hex with ⟨rfl, notPrintable, notNewline⟩
      refine ⟨ch 'x', ?_, ?_⟩
      · rintro rfl
        revert notPrintable
        decide
      · simpa [maskedChar, notPrintable, notNewline, intReadLoop, intReadMasked,
          show lit "\\x" = [ch '\\', ch 'x'] by decide,
          show ch '\\' ≠ ch 'x' by decide] using intReadLoop_appends _ fuel _ _ _

theorem length_le_flatMap_maskedChar (quote : Byte) (s : Bytes) :
    s.length ≤ (s.flatMap (maskedChar quote)).length := by
  induction s with
  | nil => exact Nat.le_refl 0
  | cons c s ih =>
    have nonempty : 0 < (maskedChar quote c).length := by
      unfold maskedChar
      split
      · split <;> simp [lit]
      · split <;> simp
    rw [flatMap_cons, length_append, length_cons]
    omega

theorem intReadFrom_intPrintOn_eq {quote : Byte} (quoted : quote ≠ 0) (s before rest : Bytes) :
    intReadFrom quote (IStream.at_ before (intPrintOn quote s ++ rest)) =
      intReadLoop quote ((s.flatMap (maskedChar quote) ++ quote :: rest).length + 1) [] 0
        (IStream.at_ (quote :: before) (s.flatMap (maskedChar quote) ++ quote :: rest)) := by
  rw [intPrintOn, if_neg quoted, cons_append, append_assoc, intReadFrom]
  simp only [IStream.get_at_cons, Option.getD_some, IStream.good_at, Bool.not_true, Bool.false_and]
  rfl

theorem intReadFrom_unmixed {quote : Byte} (quoted : quote ≠ 0) {s : Bytes}
    (unmixed : ∀ c ∈ s, Unmixed quote c) (before rest : Bytes) :
    ∃ before', intReadFrom quote (IStream.at_ before (intPrintOn quote s ++ rest)) =
      (s, 0, IStream.at_ before' rest) := by
  have enough := length_le_flatMap_maskedChar quote s
  rw [intReadFrom_intPrintOn_eq quoted]
  exact intReadLoop_masked rest s [] 0 _ _ (by rw [length_append]; omega) unmixed

theorem intReadFrom_intPrintOn {quote : Byte} (quoting : IsQuote quote) (s before rest : Bytes) :
    ∃ before', intReadFrom quote
        (IStream.at_ before (intPrintOn quote s ++ rest)) =
      (s, 0, IStream.at_ before' rest) :=
  intReadFrom_unmixed quoting.notNul (fun c _ => quoting.unmixed c) before rest

theorem unmixed_of_intReadLoop {quote : Byte} (rest : Bytes) :
    ∀ (s text : Bytes) (newlines fuel : Nat) (before : Bytes), s.length < fuel →
      (intReadLoop quote fuel text newlines
        (IStream.at_ before (s.flatMap (maskedChar quote) ++ rest))).1 = text ++ s →
      ∀ c ∈ s, Unmixed quote c
  | [], _, _, _, _, _, _ => by simp
  | c :: s, text, newlines, fuel + 1, before, enough, read => by
      rw [flatMap_cons, append_assoc] at read
      have unmixed : Unmixed quote c := by
        by_contra mixed
        rcases intReadLoop_mixed mixed fuel text newlines before
          (s.flatMap (maskedChar quote) ++ rest) with none | ⟨other, differs, wrong⟩
        · rw [none] at read
          simp at read
        · rw [read, prefix_append_right_inj] at wrong
          exact differs (cons_prefix_cons.mp wrong).1
      obtain ⟨next, step⟩ := intReadLoop_maskedChar unmixed fuel text
        newlines before (s.flatMap (maskedChar quote) ++ rest)
      rw [forall_mem_cons]
      rw [step, append_cons text c s] at read
      exact ⟨unmixed, unmixed_of_intReadLoop rest s _ _ fuel next (by simpa using enough) read⟩

/-- What was written is read back exactly when no character of it has a mask
that the quote character takes for itself. -/
theorem intReadFrom_intPrintOn_iff {quote : Byte} (quoted : quote ≠ 0) (s : Bytes) :
    (∀ before rest, ∃ before', intReadFrom quote
        (IStream.at_ before (intPrintOn quote s ++ rest)) = (s, 0, IStream.at_ before' rest)) ↔
      ∀ c ∈ s, Unmixed quote c := by
  constructor
  · intro reads
    rcases reads [] [] with ⟨before', read⟩
    rw [intReadFrom_intPrintOn_eq quoted] at read
    have enough := length_le_flatMap_maskedChar quote s
    exact unmixed_of_intReadLoop [quote] s [] 0 _ _ (by rw [length_append]; omega)
      (congrArg Prod.fst read)
  · exact fun unmixed before rest => intReadFrom_unmixed quoted unmixed before rest

theorem intReadFrom_intPrintOn_iff_newline :
    ch 'n' ≠ 0 ∧ ((∀ before rest, ∃ before', intReadFrom (ch 'n')
        (IStream.at_ before (intPrintOn (ch 'n') (lit "a") ++ rest)) =
          (lit "a", 0, IStream.at_ before' rest)) ↔ ∀ c ∈ lit "a", Unmixed (ch 'n') c) :=
  ⟨by decide, intReadFrom_intPrintOn_iff (by decide) (lit "a")⟩

/-- Between two `n` a newline is written `\n` and read as an `n`. -/
theorem not_intReadFrom_intPrintOn :
    ¬ ∀ (quote : Byte) (s before rest : Bytes), quote ≠ 0 → ∃ before', intReadFrom quote
      (IStream.at_ before (intPrintOn quote s ++ rest)) = (s, 0, IStream.at_ before' rest) := by
  intro reads
  rcases reads (ch 'n') (lit "\n") [] [] (by decide) with ⟨before', read⟩
  have text : (intReadFrom (ch 'n') (IStream.at_ []
      (intPrintOn (ch 'n') (lit "\n") ++ []))).1 = lit "n" := by decide +kernel
  have differs : lit "\n" ≠ lit "n" := by decide
  rw [read] at text
  exact differs text

end Coast
