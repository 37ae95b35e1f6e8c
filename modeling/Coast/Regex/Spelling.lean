import Coast.Regex.Termination

/-!
# Patterns that are spelled out

A pattern that is a row of single characters, of atoms with their special
characters escaped, and of stars over any character, is read as this row.
-/

namespace Coast

open List

namespace PatternInput

def rest (s : PatternInput) : Bytes := s.fPattern.drop s.fPatternIdx

variable {s : PatternInput}

theorem charAt_rest (s : PatternInput) (i : Nat) :
    s.charAt (s.fPatternIdx + i) = s.rest.getD i 0 := by
  rw [charAt, rest, getD_eq_getElem?_getD, getD_eq_getElem?_getD, getElem?_drop]

theorem cur_rest (s : PatternInput) : s.cur = s.rest.getD 0 0 := s.charAt_rest 0

theorem length_rest (s : PatternInput) : s.rest.length = s.fPattern.length - s.fPatternIdx :=
  length_drop

theorem more_rest (s : PatternInput) : s.more = decide (s.rest ≠ []) := by
  rw [more]
  apply decide_eq_decide.mpr
  rw [← length_pos_iff, length_rest]
  omega

theorem rest_skip (s : PatternInput) (n : Nat) : (s.skip n).rest = s.rest.drop n := by
  rw [rest, rest, skip, drop_drop]

theorem skip_skip (s : PatternInput) (m n : Nat) : (s.skip m).skip n = s.skip (m + n) := by
  rw [skip, skip, skip, Nat.add_assoc]

theorem goTo_idx (s : PatternInput) (n : Nat) : (s.skip n).goTo s.fPatternIdx = s := rfl

end PatternInput

/-! ## Escaped characters -/

def isSpecial (c : Byte) : Bool :=
  c = ch '.' || c = ch '[' || c = ch ']' || c = ch '\\' || c = ch '+' ||
    c = ch '?' || c = ch '\x7b' || c = ch '\x7d' || c = ch '$' || c = ch '^' ||
    c = ch '|' || c = ch '(' || c = ch ')'

def escapeSpecial (c : Byte) : Bytes := if isSpecial c then [ch '\\', c] else [c]

/-- The characters that an atom is not made of, unless they are escaped. -/
def endsAtom (c : Byte) : Bool :=
  c = ch '^' || c = ch '$' || c = ch '.' || c = ch '[' || c = ch '(' || c = ch ')' || c = ch '|'

namespace PatternInput

variable {s : PatternInput} {c : Byte} {rest : Bytes}

theorem special_kind : ∀ c : Byte, isSpecial c = true → (c = ch 'b' || c = ch 'B') = false ∧
      (c = ch 'w' || c = ch 'W' || c = ch 's' || c = ch 'S' || c = ch 'd' || c = ch 'D') = false ∧
      c ≠ ch 'x' ∧ c ≠ ch 't' ∧ c ≠ ch 'n' ∧ c ≠ ch 'r' ∧ c ≠ ch 'f' ∧
      isodigit c = false ∧ isdigit c = false ∧ 0 ≤ c.toInt ∧
      Escape.masked (.char c.toInt) = false := by
  decide +kernel

theorem escape_behind (here : s.rest = ch '\\' :: c :: rest) :
    s.escape = if c = ch 'b' || c = ch 'B' then (.complex, s.skip 2)
      else if c = ch 'w' || c = ch 'W' || c = ch 's' || c = ch 'S' ||
          c = ch 'd' || c = ch 'D' then (.charClass, s.skip 2)
      else if c = ch 'x' then (s.skip 2).hexDigits 2 0
      else if c = ch 't' then (.char 9, s.skip 2)
      else if c = ch 'n' then (.char 10, s.skip 2)
      else if c = ch 'r' then (.char 13, s.skip 2)
      else if c = ch 'f' then (.char 12, s.skip 2)
      else if isodigit c && (isodigit (s.skip 2).cur || c = ch '0') then
        (s.skip 2).octalDigits (c - ch '0').toNat
      else if isdigit c then (.backref, s.skip 2)
      else (.char c.toInt, s.skip 2) := by
  have length := s.length_rest
  rw [here, length_cons, length_cons] at length
  have second : (s.skip 2).charAt ((s.skip 2).fPatternIdx - 1) = c := by
    have there := s.charAt_rest 1
    rw [here] at there
    exact there
  rw [escape, if_neg (by omega)]
  dsimp only
  rw [second]

theorem escape_special (special : isSpecial c = true) (here : s.rest = ch '\\' :: c :: rest) :
    s.escape = (.char c.toInt, s.skip 2) := by
  rcases special_kind c special with ⟨bound, cls, hex, tab, newline, ret, feed, octal, digit, -, -⟩
  rw [escape_behind here, bound, cls, octal, digit, if_neg hex, if_neg tab,
    if_neg newline, if_neg ret, if_neg feed]
  rfl

theorem plain_kind : ∀ c : Byte, isSpecial c = false → c ≠ ch '*' →
    c ≠ ch '\\' ∧ endsAtom c = false ∧ isClosure c = false := by
  decide +kernel

theorem ends_kind : ∀ c : Byte, endsAtom c = true → c ≠ ch '\\' ∧ isClosure c = false := by
  decide +kernel

theorem atomTake_ends {d : Byte} (strAtom : Bytes)
    (here : s.rest = d :: rest) (ends : endsAtom d = true) :
    s.atomTake strAtom = .exit s := by
  have cur : s.cur = d := by
    rw [cur_rest, here]
    rfl
  rw [atomTake]
  dsimp only
  rw [cur]
  exact if_pos ends

theorem atomTurn_ends {d : Byte} {strAtom : Bytes}
    (here : s.rest = d :: rest) (ends : endsAtom d = true) :
    s.atomTurn strAtom = .exit s := by
  have take := atomTake_ends strAtom here ends
  have cur : s.cur = d := by
    rw [cur_rest, here]
    rfl
  have ahead : s.lookAhead = (some (s.charAt (s.fPatternIdx + 1)), s) := by
    rw [lookAhead, if_neg (by rw [cur]; exact (ends_kind d ends).1)]
  rw [atomTurn, ahead]
  split
  · dsimp only
    split
    · rfl
    · exact take
  · exact take

theorem atomTurn_takes {d : Byte} (strAtom : Bytes) (noStar : c ≠ ch '*')
    (here : s.rest = escapeSpecial c ++ d :: rest) (next : isClosure d = false) :
    s.atomTurn strAtom = .again (s.skip (escapeSpecial c).length) (strAtom ++ [c]) := by
  have length := s.length_rest
  rw [here, length_append, length_cons] at length
  cases special : isSpecial c with
  | true =>
    rw [escapeSpecial, if_pos special] at here length ⊢
    have cur : s.cur = ch '\\' := by
      rw [cur_rest, here]
      rfl
    have after : (s.skip 2).rest = d :: rest := by
      rw [rest_skip, here]
      rfl
    have more : (s.skip 2).more = true := by
      rw [more_rest, after]
      rfl
    have curAfter : (s.skip 2).cur = d := by
      rw [cur_rest, after]
      rfl
    have escaped := escape_special special here
    rcases special_kind c special with ⟨-, -, -, -, -, -, -, -, -, nonneg, simple⟩
    have ahead : s.lookAhead = (some d, s) := by
      rw [lookAhead, if_pos cur, escaped]
      dsimp only
      rw [if_pos more, if_neg (Int.not_lt.mpr nonneg), curAfter, goTo_idx]
    have inside : s.fPatternIdx + 1 < s.fPattern.length := by
      rw [length_cons] at length
      omega
    rw [atomTurn, if_pos inside, ahead]
    dsimp only
    rw [next, Bool.false_and, if_neg Bool.false_ne_true, atomTake]
    dsimp only
    rw [cur, escaped]
    dsimp only
    rw [simple, if_neg (by decide), if_neg (by decide), if_pos rfl,
      if_neg Bool.false_ne_true, BitVec.ofInt_toInt]
    rfl
  | false =>
    rcases plain_kind c special noStar with ⟨noEscape, noEnd, noClosure⟩
    rw [escapeSpecial, special, if_neg Bool.false_ne_true] at here length ⊢
    have cur : s.cur = c := by
      rw [cur_rest, here]
      rfl
    have second : s.charAt (s.fPatternIdx + 1) = d := by
      rw [charAt_rest, here]
      rfl
    have inside : s.fPatternIdx + 1 < s.fPattern.length := by
      rw [length_singleton] at length
      omega
    have ahead : s.lookAhead = (some d, s) := by
      rw [lookAhead, if_neg (by rwa [cur]), second]
    rw [atomTurn, if_pos inside, ahead]
    dsimp only
    rw [next, Bool.false_and, if_neg Bool.false_ne_true, atomTake]
    dsimp only
    rw [cur, noClosure, if_neg Bool.false_ne_true, if_neg noEscape]
    exact if_neg (Bool.eq_false_iff.mp noEnd)

theorem escapeSpecial_next {d : Byte} {text : Bytes}
    (noStar : ∀ c ∈ text, c ≠ ch '*') (ends : endsAtom d = true) :
    ∃ x more, text.flatMap escapeSpecial ++ d :: rest = x :: more ∧ isClosure x = false := by
  cases text with
  | nil => exact ⟨d, rest, rfl, (ends_kind d ends).2⟩
  | cons c text =>
    cases special : isSpecial c with
    | true =>
      refine ⟨ch '\\', c :: (text.flatMap escapeSpecial ++ d :: rest), ?_, by decide⟩
      rw [flatMap_cons, escapeSpecial, if_pos special]
      rfl
    | false =>
      refine ⟨c, text.flatMap escapeSpecial ++ d :: rest, ?_, ?_⟩
      · rw [flatMap_cons, escapeSpecial, special, if_neg Bool.false_ne_true]
        rfl
      · exact (plain_kind c special (noStar c mem_cons_self)).2.2

theorem atomLoop_text {d : Byte} (ends : endsAtom d = true) {text : Bytes}
    (noStar : ∀ c ∈ text, c ≠ ch '*') {turns : Nat} (enough : text.length < turns) {strAtom : Bytes}
    (some_ : strAtom ++ text ≠ []) (here : s.rest = text.flatMap escapeSpecial ++ d :: rest) :
    s.atomLoop turns strAtom =
      (some (strAtom ++ text), s.skip (text.flatMap escapeSpecial).length) := by
  induction text generalizing s turns strAtom with
  | nil =>
    obtain ⟨turns, rfl⟩ := Nat.exists_eq_succ_of_ne_zero (Nat.ne_zero_of_lt enough)
    have more : s.more = true := by
      rw [more_rest, here]
      rfl
    rw [append_nil] at some_ ⊢
    rw [atomLoop, more, Bool.not_true, if_neg Bool.false_ne_true, atomTurn_ends here ends]
    rfl
  | cons c text ih =>
    obtain ⟨turns, rfl⟩ := Nat.exists_eq_succ_of_ne_zero (Nat.ne_zero_of_lt enough)
    have inText : ∀ c ∈ text, c ≠ ch '*' := (forall_mem_cons.mp noStar).2
    rcases @escapeSpecial_next rest d text inText ends with ⟨x, behind, next, noClosure⟩
    rw [flatMap_cons, append_assoc] at here
    have more : s.more = true := by
      rw [more_rest, here, next]
      simp
    have after : (s.skip (escapeSpecial c).length).rest =
        text.flatMap escapeSpecial ++ d :: rest := by
      rw [rest_skip, here, drop_left]
    rw [next] at here
    rw [length_cons] at enough
    rw [atomLoop, more, Bool.not_true, if_neg Bool.false_ne_true,
      atomTurn_takes strAtom (noStar c mem_cons_self) here noClosure]
    dsimp only
    rw [ih inText (by omega) (by simp) after, append_assoc, flatMap_cons, length_append, skip_skip]
    rfl

end PatternInput

namespace Regex

open Reading PatternInput

/-- A piece of a branch that is read of exactly this text. -/
structure Spelled (text rest : Bytes) (piece : Regex) : Prop where
  goesOn : ∃ c more, text ++ rest = c :: more ∧ c ≠ ch '|' ∧ c ≠ ch ')'
  reads : ∀ (s : PatternInput) inner fuel, s.rest = text ++ rest →
    readPiece inner fuel s = some (.ok (piece, s.skip text.length))
  greedy : piece.endsReluctant = false

/-- A text of pieces, one behind the other. -/
inductive Spells : Bytes → List Regex → Prop where
  | nil : Spells [] []
  | cons {text rest : Bytes} {piece : Regex} {pieces : List Regex} :
      Spelled text rest piece → Spells rest pieces →
      Spells (text ++ rest) (piece :: pieces)

variable {text rest : Bytes} {piece : Regex}

def inRow : Regex → List Regex → Regex
  | piece, [] => piece
  | piece, next :: pieces => .cat piece (inRow next pieces)

theorem Spelled.branchGoesOn (spelled : Spelled text rest piece)
    {s : PatternInput} (here : s.rest = text ++ rest) :
    Compile.branchGoesOn s = true := by
  rcases spelled.goesOn with ⟨c, more, whole, noBar, noParen⟩
  rw [Compile.branchGoesOn, more_rest, cur_rest, here, whole]
  simp [noBar, noParen]

theorem branchGoesOn_end {s : PatternInput} (here : s.rest = []) :
    Compile.branchGoesOn s = false := by
  rw [Compile.branchGoesOn, more_rest, here]
  rfl

theorem readPieces_spells {pieces : List Regex} (spells : Spells rest pieces)
    (inner : Reading Regex) (fuel : Nat) {turns : Nat}
    (enough : pieces.length < turns) {first : Regex}
    (greedy : first.endsReluctant = false) {s : PatternInput} (here : s.rest = rest) :
    readPieces inner fuel turns first s =
      some (.ok (some (inRow first pieces), s.skip rest.length)) := by
  induction spells generalizing first s turns with
  | nil =>
    obtain ⟨turns, rfl⟩ := Nat.exists_eq_succ_of_ne_zero (Nat.ne_zero_of_lt enough)
    rw [readPieces, look_bind, branchGoesOn_end here]
    rfl
  | @cons text rest piece pieces spelled spells ih =>
    obtain ⟨turns, rfl⟩ := Nat.exists_eq_succ_of_ne_zero (Nat.ne_zero_of_lt enough)
    rw [length_cons] at enough
    have after : (s.skip text.length).rest = rest := by
      rw [rest_skip, here, drop_left]
    have more := @ih turns (by omega) piece spelled.greedy (s.skip text.length) after
    rw [readPieces, look_bind, spelled.branchGoesOn here, if_pos rfl]
    show Reading.bind _ _ s = _
    rw [Reading.bind, spelled.reads s inner fuel here]
    dsimp only
    rw [greedy, Bool.false_and, if_neg Bool.false_ne_true]
    show Reading.bind _ _ _ = _
    rw [Reading.bind, more]
    rw [length_append, ← skip_skip]
    rfl

theorem readsAs_spells {pieces : List Regex} (spells : Spells (text ++ rest) (piece :: pieces)) :
    ReadsAs (text ++ rest) (.ok (.one (inRow piece pieces))) := by
  generalize whole : text ++ rest = pat at spells
  generalize row : piece :: pieces = all at spells
  cases spells with
  | nil => cases row
  | @cons text rest piece' pieces' spelled spells =>
    cases row
    let s : PatternInput := { (RECompiler.start (text ++ rest)).input with fNofParentheses := 1 }
    have here : s.rest = text ++ rest := drop_zero
    have after : (s.skip text.length).rest = rest := by
      rw [rest_skip, here, drop_left]
    let fuel := pieces.length + 1
    have more := readPieces_spells spells (readGroup fuel) fuel
      (Nat.lt_succ_self _) spelled.greedy after
    rw [skip_skip, ← length_append] at more
    let last := s.skip (text ++ rest).length
    have ended : last.rest = [] := by
      rw [rest_skip, here, drop_length]
    have branch : readBranch (readGroup fuel) fuel s =
        some (.ok (some (inRow piece pieces), last)) := by
      rw [readBranch, look_bind, spelled.branchGoesOn here, if_pos rfl]
      show Reading.bind _ _ s = _
      rw [Reading.bind, spelled.reads s _ _ here]
      exact more
    have noBranch : Compile.anotherBranch last = false := by
      rw [Compile.anotherBranch, more_rest, ended]
      rfl
    have branches : readBranches (readGroup fuel) fuel fuel
        (some (inRow piece pieces)) last = some (.ok (some (.one (inRow piece pieces)), last)) := by
      rw [readBranches, look_bind, noBranch]
      rfl
    have expr : readExpr fuel (RECompiler.start (text ++ rest)).input =
        some (.ok (.one (inRow piece pieces), last)) := by
      rw [readExpr, step_bind]
      show Reading.bind _ _ s = _
      rw [Reading.bind, branch]
      show Reading.bind _ _ last = _
      rw [Reading.bind, branches]
      rfl
    have atEnd : PatternInput.ended last = true := decide_eq_true (Nat.zero_add _)
    refine ⟨fuel, .ok (.one (inRow piece pieces), last), ?_, rfl⟩
    rw [readPattern]
    show Reading.bind _ _ _ = _
    rw [Reading.bind, expr]
    dsimp only
    rw [look_bind, atEnd]
    rfl

/-! ## The pieces of simple patterns -/

theorem readClosure_none {s : PatternInput} {c : Byte} {more : Bytes}
    (here : s.rest = c :: more) (noClosure : isClosure c = false) (operand : Regex) :
    readClosure operand s = some (.ok (operand, s)) := by
  have cur : s.cur = c := by
    rw [cur_rest, here]
    rfl
  have goesOn : s.more = true := by
    rw [more_rest, here]
    rfl
  simp only [isClosure, Bool.or_eq_false_iff, decide_eq_false_iff_not] at noClosure
  rw [readClosure, look_bind, goesOn]
  show (look PatternInput.cur >>= _) s = _
  rw [look_bind, cur]
  simp [noClosure]

theorem readClosure_end {s : PatternInput} (here : s.rest = []) (operand : Regex) :
    readClosure operand s = some (.ok (operand, s)) := by
  have ends : s.more = false := by
    rw [more_rest, here]
    rfl
  rw [readClosure, look_bind, ends]
  rfl

def markOf : Terminal → Option Byte
  | .bol => some (ch '^')
  | .eol => some (ch '$')
  | .any => some (ch '.')
  | _ => none

theorem readSimple_mark {t : Terminal} {c : Byte} (mark : markOf t = some c)
    {s : PatternInput} (cur : s.cur = c) (fuel : Nat) :
    readSimple fuel s = some (.ok (.terminal t, s.skip 1)) := by
  rw [readSimple, look_bind, cur]
  cases t with
  | bol =>
    cases mark
    rfl
  | eol =>
    cases mark
    rfl
  | any =>
    cases mark
    rfl
  | _ => cases mark

theorem mark_kind {t : Terminal} {c : Byte} (mark : markOf t = some c) :
    c ≠ ch '(' ∧ c ≠ ch ')' ∧ c ≠ ch '|' := by
  cases t with
  | bol =>
    cases mark
    decide
  | eol =>
    cases mark
    decide
  | any =>
    cases mark
    decide
  | _ => cases mark

theorem readPiece_mark {t : Terminal} {c : Byte} (mark : markOf t = some c) {s : PatternInput}
    (here : s.rest = c :: rest) (inner : Reading Regex) (fuel : Nat) :
    readPiece inner fuel s = readClosure (.terminal t) (s.skip 1) := by
  have cur : s.cur = c := by
    rw [cur_rest, here]
    rfl
  rw [readPiece, look_bind, cur, if_neg (mark_kind mark).1]
  show Reading.bind _ _ s = _
  rw [Reading.bind, readSimple_mark mark cur]

theorem spelled_mark {t : Terminal} {c : Byte} (mark : markOf t = some c)
    (next : ∀ d more, rest = d :: more → isClosure d = false) :
    Spelled [c] rest (.terminal t) where
  goesOn := ⟨c, rest, rfl, (mark_kind mark).2.2, (mark_kind mark).2.1⟩
  reads s inner fuel here := by
    have after : (s.skip 1).rest = rest := by
      rw [rest_skip, here]
      rfl
    rw [readPiece_mark mark here]
    cases rest with
    | nil => exact readClosure_end after _
    | cons d more => exact readClosure_none after (next d more rfl) _
  greedy := rfl

def anyStar : Regex := .closure .star true (.terminal .any)

theorem spelled_anyStar (next : ∀ more, rest ≠ ch '?' :: more) :
    Spelled [ch '.', ch '*'] rest anyStar where
  goesOn := ⟨ch '.', ch '*' :: rest, rfl, by decide, by decide⟩
  reads s inner fuel here := by
    have after : (s.skip 1).rest = ch '*' :: rest := by
      rw [rest_skip, here]
      rfl
    have star : (s.skip 1).cur = ch '*' := by
      rw [cur_rest, after]
      rfl
    have goesOn : (s.skip 1).more = true := by
      rw [more_rest, after]
      rfl
    have behind : ((s.skip 1).skip 1).rest = rest := by
      rw [rest_skip, after]
      rfl
    have noQuestion : ((s.skip 1).skip 1).cur ≠ ch '?' := by
      rw [cur_rest, behind]
      cases rest with
      | nil => decide
      | cons d more =>
        rintro rfl
        exact next more rfl
    rw [readPiece_mark (t := .any) rfl here, readClosure, look_bind, goesOn]
    show (look PatternInput.cur >>= _) (s.skip 1) = _
    rw [look_bind, star]
    show (step (·.skip 1) >>= _) (s.skip 1) = _
    rw [step_bind]
    show (look PatternInput.cur >>= _) ((s.skip 1).skip 1) = _
    rw [look_bind, if_neg noQuestion]
    rfl
  greedy := rfl

theorem escapeSpecial_kind : ∀ c : Byte, c ≠ ch '*' → c ≠ 0 → isSpecial c = false →
      c ≠ ch '(' ∧ c ≠ ch '$' ∧ c ≠ ch '^' ∧ c ≠ ch '.' ∧ c ≠ ch '[' ∧
      (c = ch ')' || c = ch '|' || c = 0 || c = ch '?' || c = ch '+' ||
        c = ch '\x7b' || c = ch '*') = false ∧ c ≠ ch '\\' := by
  decide +kernel

theorem length_escaped (text : Bytes) : text.length ≤ (text.flatMap escapeSpecial).length := by
  induction text with
  | nil => exact Nat.le_refl 0
  | cons c text ih =>
    rw [flatMap_cons, length_append, length_cons, escapeSpecial]
    split
    · rw [length_cons, length_singleton]
      omega
    · rw [length_singleton]
      omega

section

variable {d : Byte} (ends : endsAtom d = true) (some_ : text ≠ [])
  (noStar : ∀ c ∈ text, c ≠ ch '*') {s : PatternInput}
  (here : s.rest = text.flatMap escapeSpecial ++ d :: rest)

include ends some_ noStar here

theorem readAtom_text :
    readAtom s = some (.ok (.terminal (.atom text),
      s.skip (text.flatMap escapeSpecial).length)) := by
  have length := s.length_rest
  have shorter := length_escaped text
  rw [here, length_append, length_cons] at length
  have enough : text.length < s.fPattern.length - s.fPatternIdx := by omega
  have loop := @atomLoop_text s rest d ends text noStar _ enough [] some_ here
  have read : s.atomText = (some text, s.skip (text.flatMap escapeSpecial).length) := by
    rw [atomText, loop, nil_append]
    cases text with
    | nil => exact absurd rfl some_
    | cons c text => rfl
  rw [readAtom]
  show Reading.bind _ _ s = _
  rw [Reading.bind, scan, read]
  rfl

theorem readSimple_text (nulFree : NulFree text) (fuel : Nat) :
    readSimple fuel s = some (.ok (.terminal (.atom text),
      s.skip (text.flatMap escapeSpecial).length)) := by
  have atom := readAtom_text ends some_ noStar here
  cases text with
  | nil => exact absurd rfl some_
  | cons c text =>
    rw [flatMap_cons] at here
    cases special : isSpecial c with
    | true =>
      rw [escapeSpecial, if_pos special] at here
      change s.rest = ch '\\' :: c :: (text.flatMap escapeSpecial ++ d :: rest) at here
      have cur : s.cur = ch '\\' := by
        rw [cur_rest, here]
        rfl
      rw [readSimple, look_bind, cur]
      show readEscape s = _
      rw [readEscape, look_bind, advance_bind, escape_special special here, look_bind]
      exact atom
    | false =>
      rw [escapeSpecial, special, if_neg Bool.false_ne_true] at here
      have cur : s.cur = c := by
        rw [cur_rest, here]
        rfl
      have nonzero : c ≠ 0 := fun zero =>
        nulFree (zero ▸ mem_cons_self)
      rcases escapeSpecial_kind c (noStar c mem_cons_self) nonzero
        special with ⟨-, dollar, caret, dot, square, others, escape⟩
      rw [readSimple, look_bind, cur, if_neg dollar, if_neg caret, if_neg dot, if_neg square,
        others, if_neg Bool.false_ne_true, if_neg escape]
      exact atom

end

/-- A text with its special characters escaped is one atom. -/
theorem spelled_text {d : Byte} (ends : endsAtom d = true)
    (some_ : text ≠ []) (noStar : ∀ c ∈ text, c ≠ ch '*') (nulFree : NulFree text) :
    Spelled (text.flatMap escapeSpecial) (d :: rest) (.terminal (.atom text)) := by
  have first : ∃ c more, text.flatMap escapeSpecial ++ d :: rest = c :: more ∧
      c ≠ ch '(' ∧ c ≠ ch '|' ∧ c ≠ ch ')' := by
    cases text with
    | nil => exact absurd rfl some_
    | cons c text =>
      rw [flatMap_cons]
      cases special : isSpecial c with
      | true =>
        rw [escapeSpecial, if_pos special]
        exact ⟨ch '\\', _, rfl, by decide, by decide, by decide⟩
      | false =>
        have nonzero : c ≠ 0 := fun zero =>
          nulFree (zero ▸ mem_cons_self)
        rcases escapeSpecial_kind c (noStar c mem_cons_self) nonzero
          special with ⟨paren, -, -, -, -, others, -⟩
        simp only [Bool.or_eq_false_iff, decide_eq_false_iff_not] at others
        rw [escapeSpecial, special, if_neg Bool.false_ne_true]
        exact ⟨c, _, rfl, paren, others.1.1.1.1.1.2, others.1.1.1.1.1.1⟩
  rcases first with ⟨c, more, whole, paren, bar, close⟩
  constructor
  · exact ⟨c, more, whole, bar, close⟩
  · intro s inner fuel here
    have cur : s.cur = c := by
      rw [cur_rest, here, whole]
      rfl
    have after : (s.skip (text.flatMap escapeSpecial).length).rest = d :: rest := by
      rw [rest_skip, here, drop_left]
    rw [readPiece, look_bind, cur, if_neg paren]
    show Reading.bind _ _ s = _
    rw [Reading.bind, readSimple_text ends some_ noStar here nulFree]
    exact readClosure_none after (ends_kind d ends).2 _
  · rfl

end Regex

end Coast
