import Coast.Base.StringIO
import Mathlib.Algebra.Ring.Int.Defs
import Mathlib.Algebra.Ring.Nat

/-!
# Numbers in texts

`String::Append(long)` writes a number, `strtol`, `strtoul` and the
extraction operator of a stream read one.
-/

namespace Coast

open List

def digitsText (n : Nat) : Bytes := (Nat.toDigits 10 n).map ch

def decimalText (n : Int) : Bytes :=
  if n < 0 then ch '-' :: digitsText n.natAbs else digitsText n.natAbs

def digitsValue (base : Nat) (text : Bytes) : Nat :=
  text.foldl (fun value c => base * value + (hexValue c).toNat) 0

def splitSign : Bytes → Bytes × Bytes
  | [] => ([], [])
  | c :: text =>
    if c = ch '-' || c = ch '+' then ([c], text) else ([], c :: text)

def signed (sign : Bytes) (magnitude : Nat) : Int :=
  if sign = [ch '-'] then -magnitude else magnitude

def strtol (text : Bytes) : Int64 × Bool :=
  let (sign, text) := splitSign ((cstr text).dropWhile isspace)
  let value := signed sign (digitsValue 10 (text.takeWhile isdigit))
  if value < -2 ^ 63 then (Int64.minValue, true)
  else if 2 ^ 63 ≤ value then (Int64.maxValue, true)
  else (Int64.ofInt value, false)

def isBaseDigit (base : Nat) (c : Byte) : Bool := isxdigit c && (hexValue c).toNat < base

/-- `strtoul`, the number as a bit pattern.  The callers pass no text with a
prefix for the base. -/
def strtoul (base : Nat) (text : Bytes) : BitVec 64 × Bool :=
  let (sign, text) := splitSign ((cstr text).dropWhile isspace)
  let magnitude := digitsValue base (text.takeWhile (isBaseDigit base))
  if 2 ^ 64 ≤ magnitude then (BitVec.allOnes 64, true)
  else (BitVec.ofInt 64 (signed sign magnitude), false)

/-- Blanks, a sign and digits, limited to 64 bits. -/
def extractLong (s : IStream) : Int × IStream :=
  if !s.good then (0, { s with fail := true })
  else
    let spaces := s.rest.takeWhile isspace
    let (sign, text) := splitSign (s.rest.dropWhile isspace)
    let digits := text.takeWhile isdigit
    let rest := text.dropWhile isdigit
    let value := signed sign (digitsValue 10 digits)
    (max (-2 ^ 63) (min value (2 ^ 63 - 1)),
      { before := (spaces ++ sign ++ digits).reverse ++ s.before
        rest := rest
        eof := rest.isEmpty
        fail := digits.isEmpty || value < -2 ^ 63 || 2 ^ 63 ≤ value })

/-- `istream::read` with a `long` count, as `Append` calls it. -/
def readCount (s : IStream) (length : Int) : Bytes × IStream :=
  if length ≤ 0 then ([], s) else s.readBytes length.toNat

/-! ## Reading back what was printed -/

theorem ch_digit {c : Char} (digit : c.isDigit = true) :
    isdigit (ch c) = true ∧ (hexValue (ch c)).toNat = c.toNat - '0'.toNat := by
  have bounds := Char.isDigit_iff_toNat.mp digit
  have codes : ∀ n : Nat, n < 58 → 48 ≤ n →
      isdigit (BitVec.ofNat 8 n) = true ∧ (hexValue (BitVec.ofNat 8 n)).toNat = n - 48 := by
    decide
  exact codes c.toNat (Nat.lt_succ_of_le bounds.2) bounds.1

theorem isdigit_digitsText (n : Nat) : ∀ c ∈ digitsText n, isdigit c = true := by
  intro c member
  obtain ⟨digit, inDigits, rfl⟩ := mem_map.mp member
  exact (ch_digit (Nat.isDigit_of_mem_toDigits (by decide : 0 < 10) (by decide) inDigits)).1

theorem digitsText_ne_nil (n : Nat) : digitsText n ≠ [] := by
  simp [digitsText, Nat.toDigits_ne_nil]

private theorem foldl_digits :
    ∀ (digits : List Char) (value : Nat), (∀ c ∈ digits, c.isDigit = true) → (digits.map ch).foldl
          (fun value c => 10 * value + (hexValue c).toNat) value =
        Nat.ofDigitChars 10 digits value
  | [], value, _ => by simp
  | c :: digits, value, all => by
      rw [map_cons, foldl_cons, Nat.ofDigitChars_cons, (ch_digit (all c mem_cons_self)).2]
      exact foldl_digits digits _ (forall_mem_cons.mp all).2

theorem digitsValue_digitsText (n : Nat) : digitsValue 10 (digitsText n) = n := by
  have all : ∀ c ∈ Nat.toDigits 10 n, c.isDigit = true :=
    fun c member =>
      Nat.isDigit_of_mem_toDigits (by decide) (by decide) member
  unfold digitsValue digitsText
  rw [foldl_digits _ 0 all, Nat.ofDigitChars_ten_toDigits]

theorem digitsText_zero {n : Nat} {text : Bytes}
    (leading : digitsText n = ch '0' :: text) : n = 0 := by
  induction n using Nat.strongRecOn generalizing text with
  | ind n ih =>
    by_cases small : n < 10
    · rw [digitsText, Nat.toDigits_of_lt_base small] at leading
      have code := (List.cons.inj leading).1
      clear leading ih
      revert n
      decide
    · rw [digitsText, Nat.toDigits_of_base_le (by decide) (by omega), map_append] at leading
      cases quotient : (Nat.toDigits 10 (n / 10)).map ch with
      | nil => exact absurd quotient (digitsText_ne_nil (n / 10))
      | cons c rest =>
        rw [quotient, cons_append] at leading
        have zero := (List.cons.inj leading).1
        subst zero
        have vanishes := ih (n / 10) (by omega) quotient
        omega

theorem isspace_of_isdigit {c : Byte} (digit : isdigit c = true) : isspace c = false := by
  revert c
  decide

theorem dropWhile_isspace {c : Byte} (text : Bytes) (visible : isspace c = false) :
    (c :: text).dropWhile isspace = c :: text := by
  simp [visible]

theorem splitSign_of_isdigit {text : Bytes} (digits : ∀ c ∈ text, isdigit c = true) (rest : Bytes)
    (nonempty : text ≠ []) :
    splitSign (text ++ rest) = ([], text ++ rest) := by
  cases text with
  | nil => exact absurd rfl nonempty
  | cons c text =>
    have digit := digits c mem_cons_self
    have unsigned : ¬ (c = ch '-' || c = ch '+') = true := by
      clear digits nonempty
      decide +revert
    rw [cons_append, splitSign, if_neg unsigned]

theorem splitSign_decimalText (n : Int) (rest : Bytes) :
    splitSign (decimalText n ++ rest) =
      (if n < 0 then [ch '-'] else [], digitsText n.natAbs ++ rest) := by
  unfold decimalText
  by_cases negative : n < 0
  · simp [negative, splitSign]
  · simp only [negative, if_false]
    exact splitSign_of_isdigit (isdigit_digitsText _) rest (digitsText_ne_nil _)

theorem signed_natAbs (n : Int) : signed (if n < 0 then [ch '-'] else []) n.natAbs = n := by
  unfold signed
  by_cases negative : n < 0
  · rw [if_pos negative, if_pos rfl]
    omega
  · rw [if_neg negative, if_neg (by decide)]
    omega

theorem decimalText_eq_cons (n : Int) :
    ∃ c text, decimalText n = c :: text ∧
      (isdigit c = true ∨ c = ch '-') ∧ ∀ d ∈ text, isdigit d = true := by
  unfold decimalText
  split
  · exact ⟨ch '-', _, rfl, Or.inr rfl, isdigit_digitsText _⟩
  · have all := isdigit_digitsText n.natAbs
    cases digits : digitsText n.natAbs with
    | nil => exact absurd digits (digitsText_ne_nil _)
    | cons c text =>
      rw [digits] at all
      exact ⟨c, text, rfl, Or.inl (all c mem_cons_self), (forall_mem_cons.mp all).2⟩

theorem takeWhile_append_stop {p : Byte → Bool} {stop : Byte}
    (stops : p stop = false) {word : Bytes} (all : ∀ c ∈ word, p c = true) (rest : Bytes) :
    (word ++ stop :: rest).takeWhile p = word ∧
      (word ++ stop :: rest).dropWhile p = stop :: rest := by
  rw [takeWhile_append_of_pos all, dropWhile_append_of_pos all]
  simp [stops]

private theorem nulFree_of_visible {text : Bytes}
    (all : ∀ c ∈ text, isdigit c = true ∨ c = ch '-') : NulFree text := by
  intro zero
  rcases all 0 zero with digit | minus
  · revert digit
    decide
  · revert minus
    decide

theorem decimalText_chars (n : Int) : ∀ c ∈ decimalText n, isdigit c = true ∨ c = ch '-' := by
  obtain ⟨first, text, same, start, digits⟩ := decimalText_eq_cons n
  rw [same]
  intro c member
  rcases mem_cons.mp member with rfl | later
  · exact start
  · exact Or.inl (digits c later)

theorem nulFree_decimalText (n : Int) : NulFree (decimalText n) :=
  nulFree_of_visible (decimalText_chars n)

theorem strtol_decimalText (n : Int64) : strtol (decimalText n.toInt) = (n, false) := by
  have lower := Int64.le_toInt n
  have upper := Int64.toInt_lt n
  have unspaced : (decimalText n.toInt).dropWhile isspace = decimalText n.toInt := by
    obtain ⟨c, text, same, start, -⟩ := decimalText_eq_cons n.toInt
    rw [same]
    apply dropWhile_isspace
    rcases start with digit | rfl
    · exact isspace_of_isdigit digit
    · decide
  have digits :
      (digitsText n.toInt.natAbs).takeWhile isdigit = digitsText n.toInt.natAbs :=
    takeWhile_eq_self_iff.mpr (isdigit_digitsText _)
  have split := splitSign_decimalText n.toInt []
  rw [append_nil, append_nil] at split
  unfold strtol
  rw [cstr_of_nulFree (nulFree_decimalText _), unspaced, split]
  simp only [digits, digitsValue_digitsText, signed_natAbs]
  rw [if_neg (by omega), if_neg (by omega), Int64.ofInt_toInt]

theorem extractLong_digitsText (n : Nat) (bounded : n < 2 ^ 63)
    {stop : Byte} (stops : isdigit stop = false) (before rest : Bytes) :
    ∃ before', extractLong
        (IStream.at_ before (digitsText n ++ stop :: rest)) =
      ((n : Int), IStream.at_ before' (stop :: rest)) := by
  have digits := isdigit_digitsText n
  obtain ⟨word, tail⟩ := takeWhile_append_stop stops digits rest
  have unspaced : (digitsText n ++ stop :: rest).dropWhile isspace =
      digitsText n ++ stop :: rest := by
    cases same : digitsText n with
    | nil => exact absurd same (digitsText_ne_nil n)
    | cons c text =>
      have digit : isdigit c = true := digits c (by rw [same]; exact mem_cons_self)
      exact dropWhile_isspace _ (isspace_of_isdigit digit)
  have split := splitSign_of_isdigit digits (stop :: rest) (digitsText_ne_nil n)
  have value : signed [] (digitsValue 10 (digitsText n)) = n := by
    rw [digitsValue_digitsText]
    rfl
  unfold extractLong IStream.at_
  simp only [IStream.good, unspaced, split, word, tail, value]
  have low : ¬ (n : Int) < -2 ^ 63 := by omega
  have high : ¬ (2 ^ 63 : Int) ≤ n := by omega
  have clamped : max (-2 ^ 63) (min (n : Int) (2 ^ 63 - 1)) = n := by omega
  rw [clamped]
  simp only [low, high, isEmpty_eq_false_iff.mpr (digitsText_ne_nil n), isEmpty_cons, decide_false,
    Bool.not_false, Bool.and_self, Bool.not_true, Bool.or_self, Bool.false_eq_true, if_false]
  exact ⟨_, rfl⟩

theorem readCount_at (text before rest : Bytes) :
    ∃ before', readCount (IStream.at_ before (text ++ rest)) text.length =
      (text, IStream.at_ before' rest) := by
  unfold readCount
  by_cases none : (text.length : Int) ≤ 0
  · obtain rfl : text = [] := length_eq_zero_iff.mp (by omega)
    exact ⟨before, if_pos none⟩
  · rw [if_neg none, IStream.readBytes_at_append before text rest (Int.toNat_natCast _).symm]
    exact ⟨_, rfl⟩

end Coast
