import Coast.Regex.Spelling

/-!
# Bracket expressions

What stands between the brackets is a row of items: characters, escapes,
ranges and classes.  The compiler makes a set of them that need not be the
one the items stand for.
-/

namespace Coast

open Nat

/-! ## Members of the sets -/

namespace REBitSet

/-- The characters that have a bit: the table of the singletons ends with
the lower half of a word. -/
def HasBit (c : Byte) : Prop := c.toNat % 64 < 32

instance (c : Byte) : Decidable (HasBit c) := inferInstanceAs (Decidable (_ < _))

variable {s : REBitSet}

theorem twoPow_ne_zero : ∀ i < 32, BitVec.twoPow 64 i ≠ 0 := by
  decide

theorem isMember_iff (s : REBitSet) (c : Byte) :
    s.isMember c = true ↔ HasBit c ∧ (s.bucket c).getLsbD (c.toNat % 64) = true := by
  rw [isMember, slot, fgcSingletons, decide_eq_true_eq]
  by_cases hasBit : c.toNat % 64 < 32
  · rw [if_pos hasBit, BitVec.and_twoPow]
    split
    · rename_i here
      exact iff_of_true (twoPow_ne_zero _ hasBit) ⟨hasBit, here⟩
    · rename_i missing
      exact iff_of_false (· rfl) fun both => missing both.2
  · rw [if_neg hasBit]
    exact iff_of_false (fun other => other BitVec.and_zero) fun both =>
      hasBit both.1

theorem hasBit_of_isMember {c : Byte} (member : s.isMember c = true) :
    HasBit c := ((s.isMember_iff c).mp member).1

theorem getLsbD_slot (b : Byte) (i : Nat) :
    (slot b).getLsbD i = true ↔ HasBit b ∧ b.toNat % 64 = i := by
  have inside : b.toNat % 64 < 64 := mod_lt _ (by decide)
  rw [slot, fgcSingletons]
  by_cases hasBit : b.toNat % 64 < 32
  · rw [if_pos hasBit, BitVec.getLsbD_twoPow, decide_eq_true inside,
      Bool.true_and, decide_eq_true_eq]
    exact (and_iff_right hasBit).symm
  · rw [if_neg hasBit]
    exact iff_of_false (by simp) fun both => hasBit both.1

theorem isMember_new (c : Byte) : (new false).isMember c = false := by
  have all : ∀ c : Byte, (new false).isMember c = false := by
    decide +kernel
  exact all c

theorem isMember_set (s : REBitSet) (b c : Byte) :
    (s.set b).isMember c = true ↔ s.isMember c = true ∨ c = b ∧ HasBit c := by
  rw [isMember_iff, isMember_iff, bucket, bucket, set]
  dsimp only
  have inside : c.toNat / 64 < s.fSet.length := by
    rw [s.size]
    omega
  rw [List.getD_eq_getElem?_getD, List.getElem?_set]
  by_cases same : b.toNat / 64 = c.toNat / 64
  · rw [if_pos same, if_pos (same ▸ inside), Option.getD_some, BitVec.getLsbD_or, Bool.or_eq_true,
      getLsbD_slot, bucket, same]
    have equal : b.toNat % 64 = c.toNat % 64 ↔ c = b := by
      rw [BitVec.toNat_eq]
      omega
    rw [equal]
    constructor
    · rintro ⟨hasBit, old | ⟨-, new_⟩⟩
      · exact .inl ⟨hasBit, old⟩
      · exact .inr ⟨new_, hasBit⟩
    · rintro (⟨hasBit, old⟩ | ⟨new_, hasBit⟩)
      · exact ⟨hasBit, .inl old⟩
      · exact ⟨hasBit, .inr ⟨new_ ▸ hasBit, new_⟩⟩
  · rw [if_neg same, ← List.getD_eq_getElem?_getD]
    constructor
    · exact .inl
    · rintro (old | ⟨new_, -⟩)
      · exact old
      · exact absurd (congrArg (fun c : Byte => c.toNat / 64) new_.symm) same

theorem isMember_foldl (list : List Nat) (s : REBitSet) (c : Byte) :
    (list.foldl (fun s c => s.set (BitVec.ofNat 8 c)) s).isMember c = true ↔
      s.isMember c = true ∨ (∃ n ∈ list, c = BitVec.ofNat 8 n) ∧ HasBit c := by
  induction list generalizing s with
  | nil => simp
  | cons n list ih =>
    rw [List.foldl_cons, ih, isMember_set, List.exists_mem_cons_iff]
    grind

theorem isMember_setRange (s : REBitSet) (first last c : Byte) :
    (s.setRange first last).isMember c = true ↔
      s.isMember c = true ∨ (first ≤ c ∧ c ≤ last) ∧ HasBit c := by
  have between : (∃ n ∈ List.range' first.toNat
      (last.toNat + 1 - first.toNat), c = BitVec.ofNat 8 n) ↔ first ≤ c ∧ c ≤ last := by
    have small := c.isLt
    have smallLast := last.isLt
    rw [BitVec.le_def, BitVec.le_def]
    constructor
    · rintro ⟨n, member, rfl⟩
      rw [List.mem_range'_1] at member
      rw [BitVec.toNat_ofNat, mod_eq_of_lt (by omega)]
      omega
    · rintro ⟨lower, upper⟩
      refine ⟨c.toNat, ?_, ?_⟩
      · rw [List.mem_range'_1]
        omega
      · rw [BitVec.ofNat_toNat, BitVec.setWidth_eq]
  rw [setRange, isMember_foldl, between]

theorem isMember_union (s t : REBitSet) (c : Byte) :
    (s.union t).isMember c = true ↔ s.isMember c = true ∨ t.isMember c = true := by
  rw [isMember_iff, isMember_iff, isMember_iff, ← and_or_left]
  have inside : c.toNat / 64 < s.fSet.length := by
    rw [s.size]
    omega
  have alsoInside : c.toNat / 64 < t.fSet.length := by
    rw [t.size]
    omega
  have word : (s.union t).bucket c = s.bucket c ||| t.bucket c := by
    rw [bucket, bucket, bucket, union, List.getD_eq_getElem _ _ inside,
      List.getD_eq_getElem _ _ alsoInside, List.getD_eq_getElem?_getD, List.getElem?_zipWith,
      List.getElem?_eq_getElem inside, List.getElem?_eq_getElem alsoInside]
    rfl
  rw [word, BitVec.getLsbD_or, Bool.or_eq_true]

theorem isMember_complement (s : REBitSet) (c : Byte) :
    s.complement.isMember c = true ↔ HasBit c ∧ s.isMember c = false := by
  have inside : c.toNat / 64 < s.fSet.length := by
    rw [s.size]
    omega
  have word : s.complement.bucket c = ~~~s.bucket c := by
    rw [bucket, bucket, complement, List.getD_eq_getElem _ _ inside, List.getD_eq_getElem?_getD,
      List.getElem?_map, List.getElem?_eq_getElem inside]
    rfl
  have bit : c.toNat % 64 < 64 := mod_lt _ (by decide)
  rw [← Bool.not_eq_true (s.isMember c), isMember_iff, isMember_iff, word, BitVec.getLsbD_not,
    decide_eq_true bit, Bool.true_and, Bool.not_eq_true']
  constructor
  · rintro ⟨hasBit, off⟩
    exact ⟨hasBit, fun on => Bool.false_ne_true (off.symm.trans on.2)⟩
  · rintro ⟨hasBit, off⟩
    exact ⟨hasBit, Bool.eq_false_iff.mpr fun on => off ⟨hasBit, on⟩⟩

end REBitSet

/-! ## Characters as they are written -/

namespace Brackets

open PatternInput

def quotes (c : Byte) : Bool :=
  !(isdigit c || c = ch 'b' || c = ch 'B' || c = ch 'w' || c = ch 'W' ||
    c = ch 's' || c = ch 'S' || c = ch 'd' || c = ch 'D' || c = ch 'x' ||
    c = ch 't' || c = ch 'n' || c = ch 'r' || c = ch 'f')

def digitValue (c : Byte) : Nat := (c - ch '0').toNat

def hexValue (c : Byte) : Nat := if isdigit c then digitValue c else (tolower c - ch 'a').toNat + 10

/-- A text that is an escape of a character, in front of a rest. -/
inductive Escaped (rest : Bytes) : Bytes → Byte → Prop where
  | tab : Escaped rest [ch '\\', ch 't'] 9
  | newline : Escaped rest [ch '\\', ch 'n'] 10
  | carriageReturn : Escaped rest [ch '\\', ch 'r'] 13
  | formFeed : Escaped rest [ch '\\', ch 'f'] 12
  | quoted {c : Byte} : quotes c = true → Escaped rest [ch '\\', c] c
  | hexadecimal {h l : Byte} : isxdigit h = true → isxdigit l = true →
      Escaped rest [ch '\\', ch 'x', h, l] (BitVec.ofNat 8 (hexValue h * 16 + hexValue l))
  | nul : isodigit (rest.getD 0 0) = false → Escaped rest [ch '\\', ch '0'] 0
  | octal {d e : Byte} : isodigit d = true → isodigit e = true → isodigit (rest.getD 0 0) = false →
      Escaped rest [ch '\\', d, e] (BitVec.ofNat 8 (digitValue d * 8 + digitValue e))
  | longOctal {d e f : Byte} : isodigit d = true → isodigit e = true → isodigit f = true →
      Escaped rest [ch '\\', d, e, f]
        (BitVec.ofNat 8 ((digitValue d * 8 + digitValue e) * 8 + digitValue f))

variable {s : PatternInput} {rest : Bytes}

theorem quotes_kind : ∀ c : Byte, quotes c = true → (c = ch 'b' || c = ch 'B') = false ∧
      (c = ch 'w' || c = ch 'W' || c = ch 's' || c = ch 'S' || c = ch 'd' || c = ch 'D') = false ∧
      c ≠ ch 'x' ∧ c ≠ ch 't' ∧ c ≠ ch 'n' ∧ c ≠ ch 'r' ∧ c ≠ ch 'f' ∧
      isodigit c = false ∧ isdigit c = false := by
  decide +kernel

theorem octal_kind : ∀ c : Byte, isodigit c = true → (c = ch 'b' || c = ch 'B') = false ∧
      (c = ch 'w' || c = ch 'W' || c = ch 's' || c = ch 'S' || c = ch 'd' || c = ch 'D') = false ∧
      c ≠ ch 'x' ∧ c ≠ ch 't' ∧ c ≠ ch 'n' ∧ c ≠ ch 'r' ∧ c ≠ ch 'f' := by
  decide +kernel

variable {c : Byte}

theorem hexDigits_succ (digit : isxdigit c = true) (here : s.rest = c :: rest) (digits val : Nat) :
    s.hexDigits (digits + 1) val =
      (s.skip 1).hexDigits digits ((val * 16 + hexValue c : Nat) : Int) := by
  have cur : s.cur = c := by
    rw [cur_rest, here]
    rfl
  have more : s.more = true := by
    rw [more_rest, here]
    rfl
  have letters : ∀ c : Byte, isxdigit c = true → isdigit c = false →
      (ch 'a' ≤ tolower c && tolower c ≤ ch 'f') = true := by
    decide +kernel
  rw [hexDigits, more, Bool.not_true, if_neg Bool.false_ne_true]
  dsimp only
  rw [cur, hexValue]
  cases isDigit : isdigit c with
  | true =>
    rw [if_pos rfl, if_pos rfl, digitValue]
    push_cast
    rfl
  | false =>
    rw [if_neg Bool.false_ne_true, if_neg Bool.false_ne_true, letters c digit isDigit, if_pos rfl]
    push_cast
    rw [Int.add_assoc]

theorem escape_octal {d : Byte} (digit : isodigit d = true) (here : s.rest = ch '\\' :: d :: rest)
    (more : isodigit (rest.getD 0 0) = true ∨ d = ch '0') :
    s.escape = (s.skip 2).octalDigits (digitValue d) := by
  rcases octal_kind d digit with ⟨bound, cls, hex, tab, newline, ret, feed⟩
  have cur : (s.skip 2).cur = rest.getD 0 0 := by
    rw [cur_rest, rest_skip, here]
    rfl
  have octal : (isodigit d && (isodigit (s.skip 2).cur || decide (d = ch '0'))) = true := by
    rw [digit, cur, Bool.true_and, Bool.or_eq_true, decide_eq_true_eq]
    exact more
  rw [escape_behind here, bound, cls, octal, if_neg hex, if_neg tab,
    if_neg newline, if_neg ret, if_neg feed]
  rfl

theorem Escaped.escape {text : Bytes}
    (escaped : Escaped rest text c) (here : s.rest = text ++ rest) :
    ∃ value, s.escape = (.char value, s.skip text.length) ∧ BitVec.ofInt 8 value = c := by
  cases escaped with
  | tab => exact ⟨9, escape_behind here, rfl⟩
  | newline => exact ⟨10, escape_behind here, rfl⟩
  | carriageReturn => exact ⟨13, escape_behind here, rfl⟩
  | formFeed => exact ⟨12, escape_behind here, rfl⟩
  | quoted quoted =>
    rcases quotes_kind c quoted with ⟨bound, cls, hex, tab, newline, ret, feed, octal, digit⟩
    refine ⟨c.toInt, ?_, BitVec.ofInt_toInt⟩
    rw [escape_behind here, bound, cls, octal, digit, if_neg hex,
      if_neg tab, if_neg newline, if_neg ret, if_neg feed]
    rfl
  | @hexadecimal h l high low =>
    have first : (s.skip 2).rest = h :: l :: rest := by
      rw [rest_skip, here]
      rfl
    have second : ((s.skip 2).skip 1).rest = l :: rest := by
      rw [rest_skip, first]
      rfl
    refine ⟨(((0 * 16 + hexValue h) * 16 + hexValue l : Nat) : Int), ?_, ?_⟩
    · rw [escape_behind here]
      show (s.skip 2).hexDigits 2 ((0 : Nat) : Int) = _
      rw [hexDigits_succ high first, hexDigits_succ low second]
      rfl
    · rw [BitVec.ofInt_natCast, zero_mul, zero_add]
  | nul noOctal =>
    refine ⟨0, ?_, rfl⟩
    have cur : (s.skip 2).cur = rest.getD 0 0 := by
      rw [cur_rest, rest_skip, here]
      rfl
    rw [escape_octal (by decide) here (.inr rfl), octalDigits, cur, noOctal]
    rfl
  | @octal d e first second noOctal =>
    have after : (s.skip 2).rest = e :: rest := by
      rw [rest_skip, here]
      rfl
    have cur : (s.skip 2).cur = e := by
      rw [cur_rest, after]
      rfl
    have last : ((s.skip 2).skip 1).cur = rest.getD 0 0 := by
      rw [cur_rest, rest_skip, after]
      rfl
    refine ⟨((digitValue d * 8 + digitValue e : Nat) : Int), ?_, BitVec.ofInt_natCast _ _⟩
    rw [escape_octal first here (.inl second), octalDigits, cur, second, if_pos rfl]
    dsimp only
    rw [last, noOctal, if_neg Bool.false_ne_true]
    push_cast
    rfl
  | @longOctal d e f first second third =>
    have after : (s.skip 2).rest = e :: f :: rest := by
      rw [rest_skip, here]
      rfl
    have cur : (s.skip 2).cur = e := by
      rw [cur_rest, after]
      rfl
    have last : ((s.skip 2).skip 1).cur = f := by
      rw [cur_rest, rest_skip, after]
      rfl
    refine ⟨(((digitValue d * 8 + digitValue e) * 8 + digitValue f : Nat) :
      Int), ?_, BitVec.ofInt_natCast _ _⟩
    rw [escape_octal first here (.inl second), octalDigits, cur, second, if_pos rfl]
    dsimp only
    rw [last, third, if_pos rfl]
    push_cast
    rfl

/-- A text that is written for a character, in front of a rest.  A closing
bracket is one only at the beginning. -/
inductive Written (first : Bool) (rest : Bytes) : Bytes → Byte → Prop where
  | plain {c : Byte} : c ≠ ch ']' → c ≠ ch '\\' → c ≠ ch '-' → Written first rest [c] c
  | bracket : first = true → Written first rest [ch ']'] (ch ']')
  | escaped {text : Bytes} {c : Byte} : Escaped rest text c → Written first rest text c

inductive CharClass where
  | alnum
  | space
  | digit
  deriving DecidableEq

namespace CharClass

def letter : CharClass → Byte
  | alnum => ch 'w'
  | space => ch 's'
  | digit => ch 'd'

def holds : CharClass → Byte → Bool
  | alnum => isalnum
  | space => isspace
  | digit => isdigit

/-- The table of the class, whose words are twice as long as they are meant
to be. -/
def table : CharClass → REBitSet
  | alnum => gcSetIsAlnum
  | space => gcSetIsSpace
  | digit => gcSetIsDigit

end CharClass

/-- An item between brackets, with the texts of its characters.  A minus is
one only at the end. -/
inductive Item where
  | single (c : Byte) (text : Bytes)
  | range (first last : Byte) (firstText lastText : Bytes)
  | charClass (k : CharClass)
  | minus

namespace Item

def text : Item → Bytes
  | single _ text => text
  | range _ _ firstText lastText => firstText ++ ch '-' :: lastText
  | charClass k => [ch '\\', k.letter]
  | minus => [ch '-']

/-- An expression that stands in the pattern as its text. -/
def IsWritten (first : Bool) (rest : Bytes) : Item → Prop
  | single c text => Written first rest text c
  | range a b firstText lastText =>
    Written first (ch '-' :: (lastText ++ rest)) firstText a ∧ Written false rest lastText b ∧ a < b
  | charClass _ => True
  | minus => ∃ behind, rest = ch ']' :: behind

def StandsFor (c : Byte) : Item → Prop
  | single x _ => c = x
  | range a b _ _ => a ≤ c ∧ c ≤ b
  | charClass k => k.holds c = true
  | minus => c = ch '-'

/-- The characters that the compiler keeps of an item in front of a rest: a
single character is lost when the second character behind it is a minus. -/
def Keeps (rest : Bytes) (c : Byte) : Item → Prop
  | single x _ => c = x ∧ rest.getD 1 0 ≠ ch '-'
  | range a b _ _ => a ≤ c ∧ c ≤ b
  | charClass k => k.table.isMember c = true
  | minus => c = ch '-' ∧ rest.getD 1 0 ≠ ch '-'

/-- Whether a caret stands for itself in an item without being escaped. -/
def hasCaret : Item → Bool
  | single _ text => text = [ch '^']
  | range _ _ firstText lastText =>
    firstText = [ch '^'] || lastText = [ch '^']
  | _ => false

end Item

/-! ## Turns of the loop over the items -/

/-- The place of a scan where a closing bracket is a character. -/
def AtFirst (s : PatternInput) (scan : ClassScan) : Prop :=
  s.fPatternIdx = scan.idxFirst ∨
    s.fPatternIdx = scan.idxFirst + 1 ∧ s.charAt scan.idxFirst = ch '^'

theorem more_of_rest (here : s.rest = c :: rest) : s.more = true := by
  rw [more_rest, here]
  rfl

theorem cur_of_rest (here : s.rest = c :: rest) : s.cur = c := by
  rw [cur_rest, here]
  rfl

theorem escaped_shape {text : Bytes}
    (escaped : Escaped rest text c) : ∃ more, text = ch '\\' :: more := by
  cases escaped <;> exact ⟨_, rfl⟩

variable {first : Bool} {scan : ClassScan}

theorem classTurn_written {text : Bytes} (written : Written first rest text c)
    (here : s.rest = text ++ rest) (noCaret : text ≠ [ch '^'])
    (isFirst : first = true → AtFirst s scan) :
    s.classTurn scan = (s.skip text.length).classSimple scan c := by
  cases written with
  | plain noBracket noEscape noMinus =>
    have noCaret : c ≠ ch '^' := fun same => noCaret (same ▸ rfl)
    rw [classTurn, cur_of_rest here, if_neg noBracket, if_neg noCaret,
      if_neg noEscape, if_neg noMinus]
    rfl
  | bracket atFirst =>
    have place : (s.fPatternIdx = scan.idxFirst ||
        (s.fPatternIdx = scan.idxFirst + 1 && s.charAt scan.idxFirst = ch '^')) = true := by
      rw [Bool.or_eq_true, Bool.and_eq_true, decide_eq_true_eq,
        decide_eq_true_eq, decide_eq_true_eq]
      exact isFirst atFirst
    rw [classTurn, cur_of_rest here, if_pos rfl, if_pos place]
    rfl
  | escaped escaped =>
    rcases escaped_shape escaped with ⟨more, shape⟩
    rcases escaped.escape here with ⟨value, read, same⟩
    have cur : s.cur = ch '\\' := by
      rw [shape] at here
      exact cur_of_rest here
    rw [classTurn, cur, if_neg (by decide), if_neg (by decide), if_pos rfl, classEscape, read]
    dsimp only
    rw [same]

theorem classLoop_again {s t : PatternInput} {after : ClassScan}
    (more : s.more = true) (turn : s.classTurn scan = .again t after) (fuel : Nat) :
    s.classLoop (fuel + 1) scan = t.classLoop fuel after := by
  rw [classLoop, more, Bool.not_true, if_neg Bool.false_ne_true, turn]

/-- The variables of the loop behind an item of which some characters are
kept. -/
structure After (keeps : Byte → Prop) (scan after : ClassScan) : Prop where
  noRange : after.definingRange = false
  including : after.including = scan.including
  idxFirst : after.idxFirst = scan.idxFirst
  members : ∀ c, after.range.isMember c = true ↔
    scan.range.isMember c = true ∨ keeps c ∧ REBitSet.HasBit c

theorem classSimple_single (c : Byte) (noRange : scan.definingRange = false) :
    ∃ after, s.classSimple scan c = .again s after ∧ after.last = c ∧
      After (fun m => m = c ∧ s.rest.getD 1 0 ≠ ch '-') scan after := by
  rw [classSimple, noRange, if_neg Bool.false_ne_true, charAt_rest]
  refine ⟨_, rfl, rfl, ⟨rfl, rfl, rfl, fun m => ?_⟩⟩
  dsimp only
  by_cases kept : s.rest.getD 1 0 ≠ ch '-'
  · rw [if_pos kept, REBitSet.isMember_set, and_iff_left kept]
  · rw [if_neg kept]
    exact (or_iff_left fun both => kept both.1.2).symm

theorem classSimple_range (defining : scan.definingRange = true) (less : scan.rangeStart < c) :
    ∃ after, s.classSimple scan c = .again s after ∧
      After (fun m => scan.rangeStart ≤ m ∧ m ≤ c) scan after := by
  rw [classSimple, defining, if_pos rfl, if_neg (BitVec.not_le.mpr less)]
  refine ⟨_, rfl, ⟨rfl, rfl, rfl, fun m => ?_⟩⟩
  exact REBitSet.isMember_setRange _ _ _ m

theorem escape_class (k : CharClass) (here : s.rest = [ch '\\', k.letter] ++ rest) :
    s.escape = (.charClass, s.skip 2) := by
  rw [escape_behind here]
  cases k <;> rfl

theorem classTurn_class (k : CharClass)
    (here : s.rest = [ch '\\', k.letter] ++ rest) (noRange : scan.definingRange = false) :
    ∃ after, s.classTurn scan = .again (s.skip 2) after ∧
      After (fun m => k.table.isMember m = true) scan after := by
  have letter : (s.skip 2).charAt ((s.skip 2).fPatternIdx - 1) = k.letter := by
    have there := s.charAt_rest 1
    rw [here] at there
    exact there
  rw [classTurn, cur_of_rest here, if_neg (by decide), if_neg (by decide),
    if_pos rfl, classEscape, escape_class k here]
  dsimp only
  rw [noRange, if_neg Bool.false_ne_true, letter]
  have union (m : Byte) (set : REBitSet) :
      (scan.range.union set).isMember m = true ↔
        scan.range.isMember m = true ∨ set.isMember m = true ∧ REBitSet.HasBit m := by
    rw [REBitSet.isMember_union]
    exact or_congr_right (iff_self_and.mpr REBitSet.hasBit_of_isMember)
  cases k with
  | alnum => exact ⟨_, rfl, rfl, rfl, rfl, fun m => union m gcSetIsAlnum⟩
  | space => exact ⟨_, rfl, rfl, rfl, rfl, fun m => union m gcSetIsSpace⟩
  | digit => exact ⟨_, rfl, rfl, rfl, rfl, fun m => union m gcSetIsDigit⟩

variable {behind : Bytes}

theorem classTurn_minus
    (here : s.rest = ch '-' :: ch ']' :: behind) (noRange : scan.definingRange = false) :
    ∃ after, s.classTurn scan = .again (s.skip 1) after ∧
      After (fun m => m = ch '-' ∧ (s.skip 1).rest.getD 1 0 ≠ ch '-') scan after := by
  have second : (s.skip 1).rest = ch ']' :: behind := by
    rw [rest_skip, here]
    rfl
  rw [classTurn, cur_of_rest here, if_neg (by decide), if_neg (by decide),
    if_neg (by decide), if_pos rfl, classMinus, noRange, Bool.false_or]
  split
  · rcases @classSimple_single (s.skip 1) scan (ch '-') noRange with ⟨after, turn, -, members⟩
    exact ⟨after, turn, members⟩
  · have length := s.length_rest
    rw [here, List.length_cons, List.length_cons] at length
    dsimp only
    rw [if_pos (by omega), cur_of_rest second, if_pos rfl]
    rcases @classSimple_single (s.skip 1)
      { scan with definingRange := false, rangeStart := scan.last } (ch '-')
      rfl with ⟨after, turn, -, members⟩
    exact ⟨after, turn, members.noRange, members.including, members.idxFirst, members.members⟩

theorem classTurn_between {more : Bytes}
    (here : s.rest = ch '-' :: c :: more) (noBracket : c ≠ ch ']')
    (noRange : scan.definingRange = false) (valid : scan.last ≠ charInvalid) :
    s.classTurn scan =
      .again (s.skip 1) { scan with definingRange := true, rangeStart := scan.last } := by
  have second : (s.skip 1).rest = c :: more := by
    rw [rest_skip, here]
    rfl
  have length := s.length_rest
  rw [here, List.length_cons, List.length_cons] at length
  rw [classTurn, cur_of_rest here, if_neg (by decide), if_neg (by decide),
    if_neg (by decide), if_pos rfl, classMinus, noRange, Bool.false_or,
    decide_eq_false valid, if_neg Bool.false_ne_true]
  dsimp only
  rw [if_pos (by omega), cur_of_rest second, if_neg noBracket]

def Turns (s : PatternInput) (scan : ClassScan) (t : PatternInput) (after : ClassScan) : Prop :=
  ∃ turns, ∀ fuel, s.classLoop (fuel + turns) scan = t.classLoop fuel after

theorem Turns.trans {s t u : PatternInput} {one two three : ClassScan}
    (first : Turns s one t two) (second : Turns t two u three) :
    Turns s one u three := by
  rcases first with ⟨m, first⟩
  rcases second with ⟨n, second⟩
  refine ⟨n + m, fun fuel => ?_⟩
  rw [← add_assoc, first, second]

theorem Turns.single {s t : PatternInput} {after : ClassScan}
    (more : s.more = true) (turn : s.classTurn scan = .again t after) :
    Turns s scan t after :=
  ⟨1, classLoop_again more turn⟩

theorem written_shape {text : Bytes} (written : Written first rest text c) :
    ∃ x more, text = x :: more ∧ (first = false → x ≠ ch ']') := by
  cases written with
  | plain noBracket _ _ => exact ⟨c, [], rfl, fun _ => noBracket⟩
  | bracket atFirst =>
    exact ⟨ch ']', [], rfl, fun other =>
      absurd (atFirst.symm.trans other) (by decide)⟩
  | escaped escaped =>
    rcases escaped_shape escaped with ⟨more, shape⟩
    exact ⟨ch '\\', more, shape, fun _ => by decide⟩

theorem turns_rangeStart {firstText lastText : Bytes} {a b : Byte}
    (written : Written first (ch '-' :: (lastText ++ rest)) firstText a)
    (lastWritten : Written false rest lastText b) (less : a < b)
    (here : s.rest = firstText ++ ch '-' :: (lastText ++ rest)) (noCaret : firstText ≠ [ch '^'])
    (noRange : scan.definingRange = false) (isFirst : first = true → AtFirst s scan) :
    ∃ after, Turns s scan (s.skip (firstText.length + 1)) after ∧
      after.definingRange = true ∧ after.rangeStart = a ∧
      after.including = scan.including ∧ after.idxFirst = scan.idxFirst ∧
      ∃ kept : Prop, ∀ c, after.range.isMember c = true ↔
        scan.range.isMember c = true ∨ (c = a ∧ kept) ∧ REBitSet.HasBit c := by
  rcases written_shape written with ⟨x, more, shape, -⟩
  rcases written_shape lastWritten with ⟨y, others, lastShape, noBracket⟩
  have goesOn : s.more = true := by
    rw [shape] at here
    exact more_of_rest here
  have second : (s.skip firstText.length).rest = ch '-' :: (lastText ++ rest) := by
    rw [rest_skip, here, List.drop_left]
  rcases @classSimple_single (s.skip firstText.length) scan a noRange with
    ⟨middle, turn, last, members⟩
  have valid : middle.last ≠ charInvalid := by
    rw [last]
    rintro rfl
    have top := b.isLt
    rw [BitVec.lt_def] at less
    exact absurd less (by show ¬255 < _; omega)
  have between := @classTurn_between (s.skip firstText.length) y middle
    (others ++ rest) (by rw [second, lastShape]; rfl) (noBracket rfl)
    members.noRange valid
  have one := Turns.single goesOn ((classTurn_written written here noCaret isFirst).trans turn)
  have two := Turns.single (more_of_rest second) between
  rw [skip_skip] at two
  exact ⟨{ middle with definingRange := true, rangeStart := middle.last },
    one.trans two, rfl, last, members.including, members.idxFirst, _,
    members.members⟩

theorem turns_item {item : Item} (written : item.IsWritten first rest)
    (noCaret : item.hasCaret = false) (here : s.rest = item.text ++ rest)
    (noRange : scan.definingRange = false) (isFirst : first = true → AtFirst s scan) :
    ∃ after, Turns s scan (s.skip item.text.length) after ∧
      After (fun c => item.Keeps rest c) scan after := by
  have behind : (s.skip item.text.length).rest = rest := by
    rw [rest_skip, here, List.drop_left]
  cases item with
  | single c text =>
    have noCaret : text ≠ [ch '^'] := of_decide_eq_false noCaret
    rcases written_shape written with ⟨x, more, shape, -⟩
    have goesOn : s.more = true := by
      rw [show Item.text (.single c text) = text from rfl, shape] at here
      exact more_of_rest here
    rcases @classSimple_single (s.skip text.length) scan c noRange with ⟨after, turn, -, members⟩
    rw [show (s.skip text.length).rest = rest from behind] at members
    exact ⟨after, .single goesOn
      ((classTurn_written written here noCaret isFirst).trans turn),
      members⟩
  | charClass k =>
    rcases classTurn_class k here noRange with ⟨after, turn, members⟩
    exact ⟨after, .single (more_of_rest here) turn, members⟩
  | minus =>
    rcases written with ⟨more, rfl⟩
    rcases classTurn_minus here noRange with ⟨after, turn, members⟩
    rw [show (s.skip 1).rest = ch ']' :: more from behind] at members
    exact ⟨after, .single (more_of_rest here) turn, members⟩
  | range a b firstText lastText =>
    rcases written with ⟨firstWritten, lastWritten, less⟩
    simp only [Item.hasCaret, Bool.or_eq_false_iff, decide_eq_false_iff_not] at noCaret
    have whole : s.rest = firstText ++ ch '-' :: (lastText ++ rest) := by
      rw [here, Item.text, List.append_assoc]
      rfl
    rcases turns_rangeStart firstWritten lastWritten less whole noCaret.1
      noRange isFirst with
      ⟨middle, turns, defining, start, including_, idxFirst, kept, members⟩
    have second : (s.skip (firstText.length + 1)).rest = lastText ++ rest := by
      rw [rest_skip, whole, ← List.drop_drop, List.drop_left]
      rfl
    rcases written_shape lastWritten with ⟨x, more, shape, -⟩
    have goesOn : (s.skip (firstText.length + 1)).more = true := by
      rw [shape] at second
      exact more_of_rest second
    rcases @classSimple_range ((s.skip (firstText.length + 1)).skip lastText.length) b middle
      defining (start.symm ▸ less) with ⟨after, turn, rangeMembers⟩
    have last := Turns.single goesOn ((classTurn_written lastWritten second
      noCaret.2 nofun).trans turn)
    have length : firstText.length + 1 + lastText.length =
        (Item.text (.range a b firstText lastText)).length := by
      rw [Item.text, List.length_append, List.length_cons]
      omega
    rw [skip_skip, length] at last
    refine ⟨after, turns.trans last, rangeMembers.noRange, rangeMembers.including.trans including_,
      rangeMembers.idxFirst.trans idxFirst, fun c => ?_⟩
    rw [rangeMembers.members, members, start, or_assoc]
    apply or_congr_right
    constructor
    · rintro (⟨⟨rfl, -⟩, hasBit⟩ | inside)
      · exact ⟨⟨BitVec.le_refl _, BitVec.le_of_lt less⟩, hasBit⟩
      · exact inside
    · exact .inr

def textOf (items : List Item) : Bytes := items.flatMap Item.text

def Row (behind : Bytes) : Bool → List Item → Prop
  | _, [] => True
  | first, item :: items =>
    item.IsWritten first (textOf items ++ behind) ∧ Row behind false items

/-- The characters that the compiler keeps of a row of items in front of a
text. -/
def Kept (behind : Bytes) : List Item → Byte → Prop
  | [], _ => False
  | item :: items, c =>
    item.Keeps (textOf items ++ behind) c ∨ Kept behind items c

theorem After.append {first second : Byte → Prop} {one two three : ClassScan}
    (before : After first one two) (behind : After second two three) :
    After (fun c => first c ∨ second c) one three where
  noRange := behind.noRange
  including := behind.including.trans before.including
  idxFirst := behind.idxFirst.trans before.idxFirst
  members c := by
    rw [behind.members, before.members, or_assoc, or_and_right]

variable {items : List Item}

theorem turns_items (row : Row behind first items)
    (noCaret : ∀ item ∈ items, item.hasCaret = false) (here : s.rest = textOf items ++ behind)
    (noRange : scan.definingRange = false) (isFirst : first = true → AtFirst s scan) :
    ∃ after, Turns s scan (s.skip (textOf items).length) after ∧
      After (Kept behind items) scan after := by
  induction items generalizing s scan first with
  | nil =>
    exact ⟨scan, ⟨0, fun _ => rfl⟩, noRange, rfl, rfl,
      fun _ => (or_iff_left fun both => both.1).symm⟩
  | cons item items ih =>
    rcases List.forall_mem_cons.mp noCaret with ⟨clear, noCaret⟩
    have whole : s.rest = item.text ++ (textOf items ++ behind) := by
      rw [here, ← List.append_assoc]
      rfl
    rcases turns_item row.1 clear whole noRange isFirst with ⟨middle, one, kept⟩
    have next : (s.skip item.text.length).rest = textOf items ++ behind := by
      rw [rest_skip, whole, List.drop_left]
    rcases ih row.2 noCaret next kept.noRange nofun with ⟨after, two, others⟩
    rw [skip_skip, ← List.length_append] at two
    exact ⟨after, one.trans two, kept.append others⟩

theorem text_length_pos {item : Item}
    (written : item.IsWritten first rest) : 0 < item.text.length := by
  cases item with
  | single c text =>
    rcases written_shape written with ⟨x, more, shape, -⟩
    rw [show Item.text (.single c text) = text from rfl, shape]
    exact succ_pos _
  | range a b firstText lastText =>
    rw [Item.text, List.length_append, List.length_cons]
    omega
  | charClass k => exact succ_pos _
  | minus => exact succ_pos _

theorem item_never {item : Item} (written : item.IsWritten first rest)
    (caret : item.hasCaret = true) (here : s.rest = item.text ++ rest)
    (noRange : scan.definingRange = false) (inside : scan.idxFirst ≤ s.fPatternIdx)
    (noNegation : s.fPatternIdx = scan.idxFirst → s.cur ≠ ch '^')
    (isFirst : first = true → AtFirst s scan) :
    ∃ turns, ∀ fuel, s.classLoop (fuel + turns) scan = none := by
  have stuck {more : Bytes} (here : s.rest = ch '^' :: more) :
      ∃ turns, ∀ fuel, s.classLoop (fuel + turns) scan = none := by
    have stays : Regex.caretStays s scan = true := by
      simp only [Regex.caretStays, cur_of_rest here, noRange, decide_true, Bool.true_and,
        Bool.false_and, Bool.not_false, Bool.and_true, decide_eq_true_eq, ne_eq]
      exact fun same => noNegation same (cur_of_rest here)
    exact ⟨0, Compile.classLoop_never (more_of_rest here) stays⟩
  cases item with
  | single c text =>
    have same : text = [ch '^'] := of_decide_eq_true caret
    rw [show Item.text (.single c text) = text from rfl, same] at here
    exact stuck here
  | range a b firstText lastText =>
    rcases written with ⟨firstWritten, lastWritten, less⟩
    have whole : s.rest = firstText ++ ch '-' :: (lastText ++ rest) := by
      rw [here, Item.text, List.append_assoc]
      rfl
    by_cases early : firstText = [ch '^']
    · rw [early] at whole
      exact stuck whole
    · have late : lastText = [ch '^'] := by
        simpa [Item.hasCaret, early] using caret
      rcases turns_rangeStart firstWritten lastWritten less whole early
        noRange isFirst with
        ⟨middle, ⟨turns, again⟩, -, start, -, idxFirst, -⟩
      have second : (s.skip (firstText.length + 1)).rest = ch '^' :: rest := by
        rw [rest_skip, whole, ← List.drop_drop, List.drop_left, late]
        rfl
      have last : b = ch '^' := by
        subst late
        cases lastWritten with
        | plain _ _ _ => rfl
        | escaped escaped =>
          rcases escaped_shape escaped with ⟨more, shape⟩
          cases shape
      have stays : Regex.caretStays (s.skip (firstText.length + 1)) middle = true := by
        have place : (s.skip (firstText.length + 1)).fPatternIdx ≠ middle.idxFirst := by
          rw [idxFirst, skip]
          dsimp only
          omega
        have order : decide (ch '^' ≤ a) = false :=
          decide_eq_false (BitVec.not_le.mpr (last ▸ less))
        rw [Regex.caretStays, cur_of_rest second, start, order,
          decide_eq_true place, Bool.and_false]
        rfl
      refine ⟨turns, fun fuel => ?_⟩
      rw [again]
      exact Compile.classLoop_never (more_of_rest second) stays fuel
  | charClass k => cases caret
  | minus => cases caret

theorem items_never (row : Row behind first items)
    (caret : ∃ item ∈ items, item.hasCaret = true) (here : s.rest = textOf items ++ behind)
    (noRange : scan.definingRange = false) (inside : scan.idxFirst ≤ s.fPatternIdx)
    (noNegation : s.fPatternIdx = scan.idxFirst → s.cur ≠ ch '^')
    (isFirst : first = true → AtFirst s scan) :
    ∃ turns, ∀ fuel, s.classLoop (fuel + turns) scan = none := by
  induction items generalizing s scan first with
  | nil => simp at caret
  | cons item items ih =>
    have whole : s.rest = item.text ++ (textOf items ++ behind) := by
      rw [here, ← List.append_assoc]
      rfl
    cases clear : item.hasCaret with
    | true =>
      exact item_never row.1 clear whole noRange inside noNegation isFirst
    | false =>
      rcases turns_item row.1 clear whole noRange isFirst with ⟨middle, ⟨turns, again⟩, kept⟩
      have later : ∃ item ∈ items, item.hasCaret = true := by
        rcases List.exists_mem_cons_iff .. |>.mp caret with here | later
        · cases clear.symm.trans here
        · exact later
      have next : (s.skip item.text.length).rest = textOf items ++ behind := by
        rw [rest_skip, whole, List.drop_left]
      have taken : 0 < item.text.length := text_length_pos row.1
      have place : middle.idxFirst < s.fPatternIdx + item.text.length := by
        rw [kept.idxFirst]
        omega
      rcases ih row.2 later next kept.noRange place.le
        (fun same => absurd same.symm place.ne) nofun with
        ⟨others, never⟩
      refine ⟨others + turns, fun fuel => ?_⟩
      rw [← add_assoc, again, never]

/-! ## Whole expressions -/

structure Expression where
  negated : Bool
  items : List Item

namespace Expression

def body (e : Expression) : Bytes := (if e.negated then [ch '^'] else []) ++ textOf e.items

def text (e : Expression) : Bytes := ch '[' :: (e.body ++ [ch ']'])

structure IsWritten (e : Expression) (behind : Bytes) : Prop where
  nonempty : e.items ≠ []
  row : Row (ch ']' :: behind) true e.items
  noNegation : e.negated = false → (textOf e.items).head? ≠ some (ch '^')

def StandsFor (e : Expression) (c : Byte) : Prop :=
  (∃ item ∈ e.items, item.StandsFor c) ↔ e.negated = false

/-- What has to be true of an expression in front of a text for its set to
be right: no caret but the first stands without a backslash, the characters
have a bit in the set, each that an item stands for is kept, and no class
adds others. -/
structure Faithful (e : Expression) (behind : Bytes) : Prop where
  noCaret : ∀ item ∈ e.items, item.hasCaret = false
  hasBit : ∀ c, e.StandsFor c → REBitSet.HasBit c
  kept : ∀ c, REBitSet.HasBit c → (∃ item ∈ e.items, item.StandsFor c) →
    Kept (ch ']' :: behind) e.items c
  classes : ∀ k, Item.charClass k ∈ e.items → ∀ c, k.table.isMember c = true →
    ∃ item ∈ e.items, item.StandsFor c

end Expression

theorem standsFor_of_kept (kept : Kept behind items c) :
    (∃ item ∈ items, item.StandsFor c) ∨ ∃ k, .charClass k ∈ items ∧ k.table.isMember c = true := by
  induction items with
  | nil => exact kept.elim
  | cons item items ih =>
    rcases kept with kept | later
    · cases item with
      | single x text =>
        exact .inl ⟨_, List.mem_cons_self, kept.1⟩
      | range a b firstText lastText =>
        exact .inl ⟨_, List.mem_cons_self, kept⟩
      | charClass k => exact .inr ⟨k, List.mem_cons_self, kept⟩
      | minus => exact .inl ⟨_, List.mem_cons_self, kept.1⟩
    · rcases ih later with ⟨other, member, stands⟩ | ⟨k, member, foreign⟩
      · exact .inl ⟨other, List.mem_cons_of_mem _ member, stands⟩
      · exact .inr ⟨k, List.mem_cons_of_mem _ member, foreign⟩

theorem kept_of_class {k : CharClass} (member : .charClass k ∈ items)
    (foreign : k.table.isMember c = true) : Kept behind items c := by
  induction items with
  | nil => cases member
  | cons item items ih =>
    cases member with
    | head => exact .inl foreign
    | tail _ later => exact .inr (ih later)

/-- The scan behind the caret of a negated expression. -/
structure Begun (e : Expression) (s t : PatternInput) (scan : ClassScan) : Prop where
  turns : Turns s s.classStart t scan
  including : scan.including = !e.negated
  empty : scan.range = REBitSet.new false
  noRange : scan.definingRange = false
  idxFirst : scan.idxFirst = s.fPatternIdx
  atFirst : AtFirst t scan
  noNegation : t.fPatternIdx = scan.idxFirst → t.cur ≠ ch '^'

theorem head_of_text (row : Row behind true items) (nonempty : items ≠ []) :
    ∃ c more, textOf items = c :: more := by
  cases items with
  | nil => exact absurd rfl nonempty
  | cons item items =>
    have taken := text_length_pos row.1
    rcases List.exists_cons_of_length_pos taken with ⟨c, more, shape⟩
    exact ⟨c, more ++ textOf items, by
      rw [textOf, List.flatMap_cons, shape]
      rfl⟩

theorem classLoop_begun {e : Expression} (written : e.IsWritten behind)
    (here : s.rest = e.body ++ ch ']' :: behind) :
    ∃ t scan, Begun e s t scan ∧ t = s.skip (e.body.length - (textOf e.items).length) ∧
      t.rest = textOf e.items ++ ch ']' :: behind := by
  rcases head_of_text written.row written.nonempty with ⟨c, more, shape⟩
  rw [Expression.body] at here ⊢
  cases negated : e.negated with
  | false =>
    rw [negated, if_neg Bool.false_ne_true, List.nil_append] at here
    rw [if_neg Bool.false_ne_true, List.nil_append, Nat.sub_self]
    refine ⟨s, s.classStart, ⟨⟨0, fun _ => rfl⟩, ?_, rfl, rfl, rfl,
      .inl rfl, fun _ caret => ?_⟩, rfl, here⟩
    · rw [negated]
      rfl
    · apply written.noNegation negated
      rw [shape] at here ⊢
      rw [cur_of_rest here] at caret
      rw [caret]
      rfl
  | true =>
    rw [negated, if_pos rfl] at here
    rw [if_pos rfl, List.length_append, Nat.add_sub_cancel]
    have cur : s.cur = ch '^' := cur_of_rest here
    have turn : s.classTurn s.classStart =
        .again (s.skip 1) { s.classStart with including := false } := by
      rw [classTurn, cur, if_neg (by decide), if_pos rfl]
      exact if_pos rfl
    refine ⟨_, _, ⟨.single (more_of_rest here) turn, ?_, rfl, rfl, rfl,
      .inr ⟨rfl, cur⟩, fun same => ?_⟩, rfl, ?_⟩
    · rw [negated]
      rfl
    · exact absurd same (succ_ne_self _)
    · rw [rest_skip, here]
      rfl

/-- The loop over a class reads its expression. -/
theorem classLoop_expression {e : Expression} (written : e.IsWritten behind)
    (here : s.rest = e.body ++ ch ']' :: behind)
    (noCaret : ∀ item ∈ e.items, item.hasCaret = false) :
    ∃ set turns, (∀ fuel, s.classLoop (fuel + turns) s.classStart =
        some (some set, s.skip (e.body.length + 1))) ∧
      ∀ c, set.isMember c = true ↔ REBitSet.HasBit c ∧
        (Kept (ch ']' :: behind) e.items c ↔ e.negated = false) := by
  rcases classLoop_begun written here with ⟨t, scan, begun, rfl, whole⟩
  rcases turns_items written.row noCaret whole begun.noRange
    (fun _ => begun.atFirst) with ⟨after, turns, kept⟩
  have length : e.body.length - (textOf e.items).length +
      (textOf e.items).length = e.body.length := by
    rw [Expression.body, List.length_append]
    omega
  rw [skip_skip, length] at turns
  have last : (s.skip e.body.length).rest = ch ']' :: behind := by
    rw [rest_skip, here, List.drop_left]
  have place : ((s.skip e.body.length).fPatternIdx = after.idxFirst ||
      ((s.skip e.body.length).fPatternIdx = after.idxFirst + 1 &&
        (s.skip e.body.length).charAt after.idxFirst = ch '^')) = false := by
    rcases head_of_text written.row written.nonempty with ⟨c, more, shape⟩
    rw [kept.idxFirst, begun.idxFirst]
    have skipped : (s.skip e.body.length).fPatternIdx = s.fPatternIdx + e.body.length := rfl
    rw [skipped]
    cases negated : e.negated with
    | false =>
      have body : e.body = textOf e.items := by
        rw [Expression.body, negated]
        rfl
      have other : (s.skip e.body.length).charAt s.fPatternIdx ≠ ch '^' := by
        have same : s.cur = c := by
          rw [body, shape] at here
          exact cur_of_rest here
        intro caret
        apply written.noNegation negated
        rw [shape, ← same]
        exact congrArg some caret
      rw [decide_eq_false other, Bool.and_false, Bool.or_false,
        decide_eq_false_iff_not, body, shape, List.length_cons]
      omega
    | true =>
      have body : 2 ≤ e.body.length := by
        rw [Expression.body, negated, shape]
        exact succ_le_succ (succ_le_succ (zero_le _))
      rw [decide_eq_false (by omega), decide_eq_false (by omega)]
      rfl
  have finish : (s.skip e.body.length).classTurn after =
      .endClass (s.skip e.body.length) after := by
    rw [classTurn, cur_of_rest last, if_pos rfl, place, if_neg Bool.false_ne_true]
  rcases begun.turns.trans turns with ⟨turns, again⟩
  refine ⟨if after.including then after.range else after.range.complement,
    turns + 1, fun fuel => ?_, fun c => ?_⟩
  · rw [add_comm turns, ← add_assoc, again, classLoop, more_of_rest last, finish]
    show some ((s.skip e.body.length).endClass after) = _
    rw [endClass, more_of_rest last, skip_skip]
    rfl
  · have members : after.range.isMember c = true ↔
        Kept (ch ']' :: behind) e.items c ∧ REBitSet.HasBit c := by
      rw [kept.members, begun.empty, REBitSet.isMember_new]
      exact or_iff_right Bool.false_ne_true
    rw [kept.including, begun.including]
    cases e.negated with
    | false =>
      rw [Bool.not_false, if_pos rfl, members, and_comm]
      exact and_congr_right fun _ => (iff_true_right rfl).symm
    | true =>
      rw [Bool.not_true, if_neg Bool.false_ne_true,
        REBitSet.isMember_complement, ← Bool.not_eq_true, members]
      constructor
      · rintro ⟨hasBit, out⟩
        exact ⟨hasBit, iff_of_false (fun in_ => out ⟨in_, hasBit⟩) (by simp)⟩
      · rintro ⟨hasBit, same⟩
        exact ⟨hasBit, fun both => Bool.noConfusion (same.mp both.1)⟩

theorem classLoop_caret {e : Expression} (written : e.IsWritten behind)
    (here : s.rest = e.body ++ ch ']' :: behind) (caret : ∃ item ∈ e.items, item.hasCaret = true) :
    ∃ turns, ∀ fuel, s.classLoop (fuel + turns) s.classStart = none := by
  rcases classLoop_begun written here with ⟨t, scan, begun, rfl, whole⟩
  have inside : scan.idxFirst ≤ (s.skip (e.body.length - (textOf e.items).length)).fPatternIdx := by
    rw [begun.idxFirst]
    exact le_add_right _ _
  rcases items_never written.row caret whole begun.noRange inside
    begun.noNegation (fun _ => begun.atFirst) with ⟨turns, never⟩
  rcases begun.turns with ⟨others, again⟩
  refine ⟨turns + others, fun fuel => ?_⟩
  rw [← add_assoc, again, never]

theorem characterClass_loop {c : RECompiler} (fuel : Nat) (more : (c.input.skip 1).more = true)
    (noColon : (c.input.skip 1).cur ≠ ch ':') :
    Compile.characterClass fuel c =
      (((c.input.skip 1).classLoop fuel (c.input.skip 1).classStart).map
        fun (set, input) =>
          (set.map fun _ => c.fInstruction.length, ⟨input,
            match set with
              | some set => c.fInstruction ++ Regex.code (.terminal (.anyOf set)) 0
              | none =>
                (c.fInstruction.appendNode .opAnyOf (.number 0)).2⟩)) := by
  simp only [Compile.characterClass, Compile.step_bind, Compile.look_bind, more, Bool.not_true,
    if_neg Bool.false_ne_true, if_neg noColon, Compile.appendNode, Compile.emit_bind]
  change Compile.bind (Compile.scanLoop _) _ _ = _
  rw [Compile.bind, Compile.scanLoop]
  dsimp only
  rcases (c.input.skip 1).classLoop fuel (c.input.skip 1).classStart with - | ⟨set, input⟩
  · rfl
  · cases set with
    | none => rfl
    | some set =>
      have node := Compile.setOpdata_appendNode c.fInstruction (.anyOf set) (.number 0)
      exact congrArg (fun program =>
        some (some c.fInstruction.length, RECompiler.mk input program)) node

theorem first_standsFor (row : Row behind true items) (head : (textOf items).head? = some c)
    (plain : c ≠ ch ']' ∧ c ≠ ch '\\' ∧ c ≠ ch '-') :
    ∃ item ∈ items, item.StandsFor c := by
  have one {rest text : Bytes} {x : Byte} (written : Written true rest text x)
      (head : text.head? = some c) : c = x := by
    cases written with
    | plain _ _ _ => exact (Option.some.inj head).symm
    | bracket _ => exact absurd (Option.some.inj head).symm plain.1
    | escaped escaped =>
      rcases escaped_shape escaped with ⟨more, rfl⟩
      exact absurd (Option.some.inj head).symm plain.2.1
  cases items with
  | nil => cases head
  | cons item items =>
    refine ⟨item, List.mem_cons_self, ?_⟩
    have head : item.text.head? = some c := by
      rcases List.exists_cons_of_length_pos (text_length_pos row.1) with ⟨x, more, shape⟩
      rw [textOf, List.flatMap_cons, shape] at head
      rw [shape]
      exact head
    cases item with
    | single x text => exact one row.1 head
    | range a b firstText lastText =>
      have head : firstText.head? = some c := by
        rcases written_shape row.1.1 with ⟨x, more, shape, -⟩
        rw [Item.text, shape] at head
        rw [shape]
        exact head
      rcases one row.1.1 head with rfl
      exact ⟨BitVec.le_refl _, BitVec.le_of_lt row.1.2.2⟩
    | charClass k => exact absurd (Option.some.inj head).symm plain.2.1
    | minus => exact absurd (Option.some.inj head).symm plain.2.2

/-- The compiler emits the set, behind the nodes that it has, and goes on
behind the expression. -/
def Emits (c : RECompiler) (e : Expression) (set : REBitSet) : Prop :=
  Fuel.Agree (fun fuel => Compile.characterClass fuel c) fun _ =>
    some (some c.fInstruction.length, ⟨c.input.skip e.text.length,
      c.fInstruction ++ Regex.code (.terminal (.anyOf set)) 0⟩)

variable {e : Expression} {behind : Bytes} {c : RECompiler}

theorem body_here (here : c.input.rest = e.text ++ behind) :
    (c.input.skip 1).rest = e.body ++ ch ']' :: behind := by
  rw [rest_skip, here, Expression.text, List.cons_append, List.drop_one,
    List.tail_cons, List.append_assoc]
  rfl

theorem body_more (here : c.input.rest = e.text ++ behind) : (c.input.skip 1).more = true := by
  rw [more_rest, body_here here, decide_eq_true_eq]
  exact List.append_ne_nil_of_right_ne_nil _ (List.cons_ne_nil _ _)

theorem colon_standsFor (written : e.IsWritten behind) (here : c.input.rest = e.text ++ behind)
    (colon : (c.input.skip 1).cur = ch ':') : e.StandsFor (ch ':') := by
  rw [cur_rest, body_here here, Expression.body] at colon
  cases negated : e.negated with
  | true =>
    rw [negated] at colon
    cases colon
  | false =>
    rcases head_of_text written.row written.nonempty with ⟨x, more, shape⟩
    rw [negated, shape] at colon
    have head : (textOf e.items).head? = some (ch ':') := by
      rw [shape]
      exact congrArg some colon
    exact iff_of_true (first_standsFor written.row head (by decide)) negated

theorem emits_kept (written : e.IsWritten behind) (here : c.input.rest = e.text ++ behind)
    (noColon : (c.input.skip 1).cur ≠ ch ':') (noCaret : ∀ item ∈ e.items, item.hasCaret = false) :
    ∃ set, Emits c e set ∧ ∀ m, set.isMember m = true ↔
      REBitSet.HasBit m ∧ (Kept (ch ']' :: behind) e.items m ↔ e.negated = false) := by
  rcases classLoop_expression written (body_here here) noCaret with ⟨set, turns, loop, members⟩
  refine ⟨set, ⟨turns, fun fuel large => ?_⟩, members⟩
  obtain ⟨more, rfl⟩ := Nat.exists_eq_add_of_le' large
  have length : 1 + (e.body.length + 1) = e.text.length := by
    rw [Expression.text, List.length_cons, List.length_append]
    exact add_comm 1 _
  dsimp only
  rw [characterClass_loop _ (body_more here) noColon, loop, skip_skip, length]
  rfl

theorem emits_unique {s t : REBitSet} (one : Emits c e s) (other : Emits c e t) : s = t := by
  rcases one with ⟨bound, one⟩
  rcases other with ⟨otherBound, other⟩
  have same := (one _ (le_max_left bound otherBound)).symm.trans
    (other _ (le_max_right bound otherBound))
  have code := List.append_cancel_left
    (congrArg RECompiler.fInstruction (Prod.mk.inj (Option.some.inj same)).2)
  exact OpData.set.inj (congrArg Node.opdata (List.cons.inj code).1)

theorem not_emits_caret (written : e.IsWritten behind) (here : c.input.rest = e.text ++ behind)
    (noColon : (c.input.skip 1).cur ≠ ch ':')
    (caret : ∃ item ∈ e.items, item.hasCaret = true) (set : REBitSet) :
    ¬Emits c e set := by
  rintro ⟨bound, emits⟩
  rcases classLoop_caret written (body_here here) caret with ⟨turns, never⟩
  have result := emits (bound + turns) (le_add_right _ _)
  dsimp only at result
  rw [characterClass_loop _ (body_more here) noColon, never] at result
  cases result

/-- The set that is emitted is the one that the expression stands for when
the compiler keeps its items, and only then. -/
theorem characterClass_exact_iff (e : Expression) (behind : Bytes)
    (c : RECompiler) (written : e.IsWritten behind) (here : c.input.rest = e.text ++ behind) :
    (∃ set, Emits c e set ∧ ∀ m, set.isMember m = true ↔ e.StandsFor m) ↔ e.Faithful behind := by
  constructor
  · rintro ⟨set, emits, exact_⟩
    have hasBit : ∀ m, e.StandsFor m → REBitSet.HasBit m := fun m stands =>
      REBitSet.hasBit_of_isMember ((exact_ m).mpr stands)
    have noColon : (c.input.skip 1).cur ≠ ch ':' := fun colon =>
      absurd (hasBit _ (colon_standsFor written here colon)) (by decide)
    have noCaret : ∀ item ∈ e.items, item.hasCaret = false := by
      intro item member
      by_contra caret
      exact not_emits_caret written here noColon
        ⟨item, member, Bool.not_eq_false _ ▸ caret⟩ set emits
    rcases emits_kept written here noColon noCaret with ⟨other, otherEmits, members⟩
    rcases emits_unique emits otherEmits with rfl
    have agree (m : Byte) (bit : REBitSet.HasBit m) :
        Kept (ch ']' :: behind) e.items m ↔ ∃ item ∈ e.items, item.StandsFor m := by
      have same := (members m).symm.trans (exact_ m)
      rw [and_iff_right bit, Expression.StandsFor] at same
      by_cases plain : e.negated = false
      · rw [iff_true_right plain, iff_true_right plain] at same
        exact same
      · rw [iff_false_right plain, iff_false_right plain] at same
        exact not_iff_not.mp same
    exact ⟨noCaret, hasBit, fun m bit => (agree m bit).mpr, fun k member m foreign => (agree m
        (REBitSet.hasBit_of_isMember foreign)).mp (kept_of_class member foreign)⟩
  · intro faithful
    have noColon : (c.input.skip 1).cur ≠ ch ':' := fun colon =>
      absurd (faithful.hasBit _ (colon_standsFor written here colon)) (by decide)
    rcases emits_kept written here noColon faithful.noCaret with ⟨set, emits, members⟩
    refine ⟨set, emits, fun m => ?_⟩
    have agree (bit : REBitSet.HasBit m) :
        Kept (ch ']' :: behind) e.items m ↔ ∃ item ∈ e.items, item.StandsFor m := by
      constructor
      · intro kept
        rcases standsFor_of_kept kept with stands | ⟨k, member, foreign⟩
        · exact stands
        · exact faithful.classes k member m foreign
      · exact faithful.kept m bit
    rw [members, Expression.StandsFor]
    constructor
    · rintro ⟨bit, same⟩
      exact (agree bit).symm.trans same
    · intro stands
      have bit := faithful.hasBit m stands
      exact ⟨bit, (agree bit).trans stands⟩

def rangeOnly : Expression := ⟨false, [.range 65 67 [65] [67]]⟩

theorem characterClass_exact_range :
    ∃ set, Emits (RECompiler.start rangeOnly.text) rangeOnly set ∧
      ∀ m, set.isMember m = true ↔ 65 ≤ m ∧ m ≤ 67 := by
  have written : rangeOnly.IsWritten [] := by
    refine ⟨List.cons_ne_nil _ _, ⟨⟨?_, ?_, by decide⟩, trivial⟩, by decide⟩
    · exact .plain (by decide) (by decide) (by decide)
    · exact .plain (by decide) (by decide) (by decide)
  have stands (m : Byte) : (∃ item ∈ rangeOnly.items, item.StandsFor m) ↔ 65 ≤ m ∧ m ≤ 67 := by
    rw [rangeOnly, List.exists_mem_cons_iff]
    exact or_iff_left fun other => by simp at other
  have whole (m : Byte) : rangeOnly.StandsFor m ↔ 65 ≤ m ∧ m ≤ 67 := by
    rw [Expression.StandsFor, stands]
    exact iff_true_right rfl
  have hasBit : ∀ m : Byte, 65 ≤ m ∧ m ≤ 67 → REBitSet.HasBit m := by
    decide +kernel
  have faithful : rangeOnly.Faithful [] := by
    refine ⟨?_, fun m inside => hasBit m ((whole m).mp inside),
      fun m _ inside => .inl ((stands m).mp inside), fun k member => ?_⟩
    · simp [rangeOnly, Item.hasCaret, ch]
    · simp [rangeOnly] at member
  rcases (characterClass_exact_iff rangeOnly [] (RECompiler.start rangeOnly.text)
    written (List.append_nil _).symm).mpr faithful with ⟨set, emits, members⟩
  exact ⟨set, emits, fun m => (members m).trans (whole m)⟩

/-- `[PA-B]`: the character in front of the range is lost. -/
def besideRange : Expression := ⟨false, [.single 80 [80], .range 65 66 [65] [66]]⟩

theorem not_characterClass_exact :
    ¬∀ (e : Expression) (behind : Bytes) (c : RECompiler),
      e.IsWritten behind → c.input.rest = e.text ++ behind →
        ∃ set, Emits c e set ∧ ∀ m, set.isMember m = true ↔ e.StandsFor m := by
  intro always
  have written : besideRange.IsWritten [] := by
    refine ⟨List.cons_ne_nil _ _, ⟨?_, ⟨?_, ?_, by decide⟩, trivial⟩, by decide⟩
    · exact .plain (by decide) (by decide) (by decide)
    · exact .plain (by decide) (by decide) (by decide)
    · exact .plain (by decide) (by decide) (by decide)
  have here : (RECompiler.start besideRange.text).input.rest =
      besideRange.text ++ [] := (List.append_nil _).symm
  rcases always besideRange [] (RECompiler.start besideRange.text) written here with
    ⟨set, emits, exact_⟩
  rcases emits_kept written here (by decide) (by
    simp [besideRange, Item.hasCaret, ch]) with ⟨other, otherEmits, members⟩
  rcases emits_unique emits otherEmits with rfl
  have stands : besideRange.StandsFor 80 := iff_of_true ⟨_, List.mem_cons_self, rfl⟩ rfl
  rcases ((members 80).mp ((exact_ 80).mpr stands)).2.mpr rfl with ⟨-, kept⟩ | kept | none
  · exact kept rfl
  · have outside : ¬((65 : Byte) ≤ 80 ∧ (80 : Byte) ≤ 66) := by decide
    exact outside kept
  · exact none.elim

end Brackets

end Coast

