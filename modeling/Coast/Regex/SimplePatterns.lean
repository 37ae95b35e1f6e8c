import Coast.Regex.Search

/-!
# Simple patterns

A simple pattern is a text in which a star stands for any string.  It is
translated to a regular expression, whose special characters are escaped.
-/

namespace Coast

open List Nat

def simplePatternToFullRegularExpression (pattern : Bytes) : Bytes :=
  pattern.flatMap fun c =>
    if c = ch '*' then [ch '.', ch '*'] else escapeSpecial c

namespace Regex

open PatternInput

variable {rest : Bytes}

/-! ## The tree of a simple pattern -/

def segments : Bytes → Bytes × List Bytes
  | [] => ([], [])
  | c :: pattern =>
    if c = ch '*' then ([], (segments pattern).1 :: (segments pattern).2)
    else (c :: (segments pattern).1, (segments pattern).2)

def starsText (behind : List Bytes) : Bytes :=
  behind.flatMap fun text =>
    [ch '.', ch '*'] ++ text.flatMap escapeSpecial

def textPieces (text : Bytes) : List Regex := if text = [] then [] else [.terminal (.atom text)]

def starPieces (behind : List Bytes) : List Regex :=
  behind.flatMap (fun text => anyStar :: textPieces text) ++ [.terminal .eol]

theorem starPieces_cons (text : Bytes) (behind : List Bytes) :
    starPieces (text :: behind) = anyStar :: (textPieces text ++ starPieces behind) := by
  rw [starPieces, flatMap_cons, starPieces, cons_append, cons_append, append_assoc]

theorem translation_segments (pattern : Bytes) :
    simplePatternToFullRegularExpression pattern =
      (segments pattern).1.flatMap escapeSpecial ++ starsText (segments pattern).2 := by
  induction pattern with
  | nil => rfl
  | cons c pattern ih =>
    rw [simplePatternToFullRegularExpression, flatMap_cons,
      ← simplePatternToFullRegularExpression, ih, segments]
    by_cases star : c = ch '*'
    · rw [if_pos star, if_pos star, starsText, starsText, flatMap_cons, append_assoc]
      rfl
    · rw [if_neg star, if_neg star, flatMap_cons, append_assoc]

def Plain (text : Bytes) : Prop := (∀ c ∈ text, c ≠ ch '*') ∧ NulFree text

theorem segments_plain {pattern : Bytes} (nulFree : NulFree pattern) :
    Plain (segments pattern).1 ∧ ∀ text ∈ (segments pattern).2, Plain text := by
  induction pattern with
  | nil => exact ⟨⟨nofun, not_mem_nil⟩, nofun⟩
  | cons c pattern ih =>
    rcases ih fun zero =>
      nulFree (mem_cons_of_mem c zero) with ⟨first, behind⟩
    rw [segments]
    by_cases star : c = ch '*'
    · rw [if_pos star]
      refine ⟨⟨nofun, not_mem_nil⟩, fun text member => ?_⟩
      rcases mem_cons.mp member with rfl | later
      · exact first
      · exact behind text later
    · rw [if_neg star]
      refine ⟨⟨fun d member => ?_, fun zero => ?_⟩, behind⟩
      · rcases mem_cons.mp member with rfl | later
        · exact star
        · exact first.1 d later
      · rcases mem_cons.mp zero with same | later
        · exact nulFree (same ▸ mem_cons_self)
        · exact first.2 later

theorem spells_text {d : Byte} (ends : endsAtom d = true) {plainText : Bytes}
    (plain : Plain plainText) {pieces : List Regex} (spells : Spells (d :: rest) pieces) :
    Spells (plainText.flatMap escapeSpecial ++ d :: rest) (textPieces plainText ++ pieces) := by
  rw [textPieces]
  by_cases empty : plainText = []
  · rw [if_pos empty, empty]
    exact spells
  · rw [if_neg empty]
    exact .cons (spelled_text ends empty plain.1 plain.2) spells

theorem spells_stars {behind : List Bytes} (plain : ∀ text ∈ behind, Plain text) :
    ∃ d more, starsText behind ++ [ch '$'] = d :: more ∧ endsAtom d = true ∧
      Spells (starsText behind ++ [ch '$']) (starPieces behind) := by
  induction behind with
  | nil =>
    refine ⟨ch '$', [], rfl, by decide, ?_⟩
    exact @Spells.cons [ch '$'] _ _ _ (spelled_mark (t := .eol) rfl nofun) .nil
  | cons text behind ih =>
    rcases ih (forall_mem_cons.mp plain).2 with ⟨d, more, whole, ends, spells⟩
    have plainText := plain text mem_cons_self
    rcases @escapeSpecial_next more d text plainText.1 ends with ⟨x, next, head, noClosure⟩
    have noQuestion : ∀ more', text.flatMap escapeSpecial ++ d :: more ≠ ch '?' :: more' := by
      intro more' same
      rw [head] at same
      cases same
      exact absurd noClosure (by decide)
    rw [whole] at spells
    have row : Spells _ _ := .cons (spelled_anyStar noQuestion) (spells_text ends plainText spells)
    have shape : starsText (text :: behind) ++ [ch '$'] =
        [ch '.', ch '*'] ++ (text.flatMap escapeSpecial ++ d :: more) := by
      rw [starsText, flatMap_cons, ← starsText, append_assoc, append_assoc, whole]
    refine ⟨ch '.', _, rfl, by decide, ?_⟩
    rw [shape, starPieces_cons]
    exact row

def simplePieces (pattern : Bytes) : List Regex :=
  textPieces (segments pattern).1 ++ starPieces (segments pattern).2

def simpleTree (pattern : Bytes) : Branches := .one (inRow (.terminal .bol) (simplePieces pattern))

def simpleRegularExpression (pattern : Bytes) : Bytes :=
  lit "^" ++ simplePatternToFullRegularExpression pattern ++ lit "$"

theorem readsAs_simple {pattern : Bytes} (nulFree : NulFree pattern) :
    ReadsAs (simpleRegularExpression pattern) (.ok (simpleTree pattern)) := by
  rcases segments_plain nulFree with ⟨first, behind⟩
  rcases spells_stars behind with ⟨d, more, whole, ends, spells⟩
  rcases @escapeSpecial_next more d _ first.1 ends with ⟨x, next, head, noClosure⟩
  rw [whole] at spells
  have row := spells_text ends first spells
  have opening : Spelled [ch '^'] ((segments pattern).1.flatMap escapeSpecial ++ d :: more)
      (.terminal .bol) := by
    apply spelled_mark rfl
    intro c more' same
    rw [head] at same
    cases same
    exact noClosure
  have shape : simpleRegularExpression pattern =
      [ch '^'] ++ ((segments pattern).1.flatMap escapeSpecial ++ d :: more) := by
    rw [← whole, simpleRegularExpression, translation_segments, append_assoc, append_assoc]
    rfl
  rw [shape]
  exact readsAs_spells (.cons opening row)

end Regex

/-! ## Runs of the pieces -/

namespace RE

open Match Regex

def Decided (holds : Prop) (r : Option Nat) (_ : MatchState) : Prop := r ≠ none ↔ holds

variable {re : RE} {p : Nat}

/-- Whether the runs from a node succeed, for every index in the subject. -/
def Decides (re : RE) (p : Nat) (K : Nat → Prop) : Prop :=
  ∀ idx st, idx ≤ re.fSearch.length → re.Runs re.fProgram.length p idx st (Decided (K idx))

theorem placed_lt {n : Node} {code : Program} (placed : Placed re.fProgram p (n :: code)) :
    (p : Int) < re.fProgram.length := by
  have inside := (List.getElem?_eq_some_iff.mp placed.head).1
  omega

theorem decides_eol (normal : re.fMatchFlags = ⟨false, false, false⟩)
    (placed : Placed re.fProgram p
      [instr .opEol (.number 0) 1, instr .opEnd (.number 0) 0]) :
    re.Decides p (re.fSearch.length ≤ ·) := by
  intro idx st _
  have here : re.Has p .opEol (.number 0) 1 := ⟨placed.head, by decide⟩
  have ending : re.Has (p + 1) .opEnd (.number 0) 0 := ⟨placed.tail.head, by decide⟩
  have before := placed_lt placed
  have behind := placed_lt placed.tail
  have atEol : re.atEol idx = decide (re.fSearch.length ≤ idx) := by
    rw [RE.atEol, normal, Bool.false_and, Bool.or_false]
  by_cases last : re.fSearch.length ≤ idx
  · have goesOn : re.consume .opEol (.number 0) idx st = .ok (some idx) := by
      rw [consume, atEol, decide_eq_true last]
      rfl
    refine runs_consume here rfl before goesOn ?_
    exact runs_end ending behind (iff_of_true (Option.some_ne_none _) last)
  · have stops : re.consume .opEol (.number 0) idx st = .ok none := by
      rw [consume, atEol, decide_eq_false last]
      rfl
    exact runs_fail here rfl before stops (iff_of_false (· rfl) last)

def textAt (re : RE) (text : Bytes) (idx : Nat) : Prop :=
  (re.fSearch.drop idx).take text.length = text

def textCode (text : Bytes) : Program := (textPieces text).flatMap (·.code 1)

theorem matchAtom_iff (normal : re.fMatchFlags = ⟨false, false, false⟩)
    (subject : NulFree re.fSearch) {text : Bytes} (nulFree : NulFree text)
    (some_ : text ≠ []) (idx : Nat) :
    re.matchAtom text idx = true ↔ re.textAt text idx := by
  have positive := length_pos_iff.mpr some_
  have inSubject : NulFree ((re.fSearch.drop idx).take text.length) :=
    fun zero => subject (mem_of_mem_drop (mem_of_mem_take zero))
  rw [matchAtom, normal, Bool.and_eq_true, decide_eq_true_eq, sameFirst, if_neg Bool.false_ne_true,
    decide_eq_true_eq, take_length, cstr_of_nulFree nulFree, cstr_of_nulFree inSubject, textAt]
  constructor
  · exact And.right
  · intro same
    refine ⟨?_, same⟩
    have length := congrArg List.length same
    rw [length_take, length_drop] at length
    omega

theorem decides_text (normal : re.fMatchFlags = ⟨false, false, false⟩)
    (subject : NulFree re.fSearch) {text : Bytes} (nulFree : NulFree text) {code : Program}
    {K : Nat → Prop} (placed : Placed re.fProgram p (textCode text ++ code))
    (behind : re.Decides (p + (textCode text).length) K) :
    re.Decides p fun idx => re.textAt text idx ∧ K (idx + text.length) := by
  intro idx st inside
  by_cases empty : text = []
  · subst empty
    have same := behind idx st inside
    have all : re.textAt [] idx := take_zero
    simp only [length_nil, add_zero, all, true_and]
    exact same
  · have shape : textCode text = [instr .opAtom (.text text) 1] := by
      rw [textCode, textPieces, if_neg empty]
      rfl
    rw [shape] at placed behind
    have here : re.Has p .opAtom (.text text) 1 := ⟨placed.head, by decide⟩
    have before := placed_lt placed
    have asCharPtr : (OpData.text text).asCharPtr = text := cstr_of_nulFree nulFree
    have stands := matchAtom_iff normal subject nulFree empty idx
    by_cases found : re.textAt text idx
    · have goesOn : re.consume .opAtom (.text text) idx st = .ok (some (idx + text.length)) := by
        rw [consume, asCharPtr, stands.mpr found]
        rfl
      have length := congrArg List.length found
      rw [length_take, length_drop] at length
      have positive := length_pos_iff.mpr empty
      have rest := behind (idx + text.length) st (by omega)
      refine runs_consume here rfl before goesOn ?_
      exact Runs.imp rest fun r after decided =>
        decided.trans (and_iff_right found).symm
    · have stops : re.consume .opAtom (.text text) idx st = .ok none := by
        rw [consume, asCharPtr, Bool.eq_false_iff.mpr (stands.not.mpr found)]
        rfl
      exact runs_fail here rfl before stops (iff_of_false (· rfl) fun both => found both.1)

/-- A star over any character takes as much as it can. -/
theorem decides_anyStar (points : ∀ idx, idx < re.fSearch.length → re.matchAny idx = true)
    {code : Program} {K : Nat → Prop}
    (placed : Placed re.fProgram p (anyStar.code 1 ++ code)) (behind : re.Decides (p + 6) K) :
    re.Decides p fun idx =>
      ∃ j, idx ≤ j ∧ j ≤ re.fSearch.length ∧ K j := by
  have opening : re.Has p .opBranch (.number 0) 4 := ⟨placed.head, by decide⟩
  have any : re.Has (p + 1) .opAny (.number 0) 1 := ⟨placed.tail.head, by decide⟩
  have again : re.Has (p + 2) .opBranch (.number 0) 1 := ⟨placed.tail.tail.head, by decide⟩
  have goBack : re.Has (p + 3) .opGoto (.number 0) (-3) := ⟨placed.tail.tail.tail.head, by decide⟩
  have other : re.Has (p + 4) .opBranch (.number 0) 1 :=
    ⟨placed.tail.tail.tail.tail.head, by decide⟩
  have nothing : re.Has (p + 5) .opNothing (.number 0) 1 :=
    ⟨placed.tail.tail.tail.tail.tail.head, by decide⟩
  have last := placed_lt placed.tail.tail.tail.tail.tail
  have skip (idx : Nat) (st : MatchState) (inside : idx ≤ re.fSearch.length) :
      Yields (fun fuel => re.tryBranches fuel (p + 4 : Nat) idx) st (Decided (K idx)) := by
    refine tries_last (q := p + 5) (by omega) nothing (Int.le_refl _) other (by decide) (by decide) ?_
    refine runs_consume nothing rfl (by omega) rfl ?_
    exact behind idx st inside
  intro idx st inside
  induction measure : re.fSearch.length - idx using Nat.strong_induction_on
    generalizing idx st with
  | _ n ih =>
    refine runs_branch (q := p + 4) (by omega) other (by omega) opening rfl ?_
    refine tries_next (q := p + 4) (by omega) other (Int.le_refl _) opening rfl (by decide) ?_
    by_cases more : idx < re.fSearch.length
    · have goesOn : re.consume .opAny (.number 0) idx st = .ok (some (idx + 1)) := by
        rw [consume, points idx more]
        rfl
      refine runs_consume any rfl (by omega) goesOn ?_
      have turn : re.Runs re.fProgram.length (p + 2 : Nat) (idx + 1) st
          (Decided (∃ j, idx + 1 ≤ j ∧ j ≤ re.fSearch.length ∧ K j)) := by
        refine runs_lone (q := p + 3) (by omega) goBack (by omega) again
          (by decide) ?_
        refine runs_consume goBack rfl (by omega) rfl ?_
        rw [show ((p + 3 : Nat) : Int) + -3 = (p : Nat) by omega]
        exact ih (re.fSearch.length - (idx + 1)) (by omega) (idx + 1) st more rfl
      refine Runs.imp turn ?_
      rintro (_ | idxNew) after decided
      · refine (skip idx after inside).imp fun r last decidedLast =>
          decidedLast.trans ?_
        constructor
        · exact fun here => ⟨idx, le_refl _, inside, here⟩
        · rintro ⟨j, later, inSubject, here⟩
          rcases eq_or_lt_of_le later with rfl | behindIdx
          · exact here
          · exact absurd (decided.mpr ⟨j, behindIdx, inSubject, here⟩) (not_not_intro rfl)
      · rcases decided.mp (Option.some_ne_none _) with ⟨j, later, inSubject, here⟩
        exact iff_of_true (Option.some_ne_none _) ⟨j, le_of_succ_le later, inSubject, here⟩
    · have stops : re.consume .opAny (.number 0) idx st = .ok none := by
        rw [consume, matchAny, decide_eq_false more]
        rfl
      refine runs_fail any rfl (by omega) stops ?_
      refine (skip idx st inside).imp fun r after decided => decided.trans ?_
      constructor
      · exact fun here => ⟨idx, le_refl _, inside, here⟩
      · rintro ⟨j, later, inSubject, here⟩
        obtain rfl : j = idx := by omega
        exact here

def WildFrom (re : RE) : List Bytes → Nat → Prop
  | [], idx => re.fSearch.length ≤ idx
  | text :: behind, idx =>
    ∃ j, idx ≤ j ∧ j ≤ re.fSearch.length ∧ re.textAt text j ∧ re.WildFrom behind (j + text.length)

def piecesCode (pieces : List Regex) : Program := pieces.flatMap (·.code 1)

theorem decides_stars (normal : re.fMatchFlags = ⟨false, false, false⟩)
    (subject : NulFree re.fSearch)
    (points : ∀ idx, idx < re.fSearch.length → re.matchAny idx = true)
    {behind : List Bytes} (plain : ∀ text ∈ behind, Plain text)
    (placed : Placed re.fProgram p (piecesCode (starPieces behind) ++
      [instr .opEnd (.number 0) 0])) :
    re.Decides p (re.WildFrom behind) := by
  induction behind generalizing p with
  | nil => exact decides_eol normal placed
  | cons text behind ih =>
    have shape : piecesCode (starPieces (text :: behind)) ++ [instr .opEnd (.number 0) 0] =
      anyStar.code 1 ++ (textCode text ++
        (piecesCode (starPieces behind) ++ [instr .opEnd (.number 0) 0])) := by
      rw [starPieces_cons, piecesCode, flatMap_cons, flatMap_append, textCode, piecesCode,
        append_assoc, append_assoc]
    rw [shape] at placed
    have second := placed.right
    have rest := ih (forall_mem_cons.mp plain).2 second.right
    have plainText := plain text mem_cons_self
    exact decides_anyStar points placed (decides_text normal subject plainText.2 second rest)

theorem code_inRow (piece : Regex) (pieces : List Regex) :
    (inRow piece pieces).code 1 = piece.code 1 ++ piecesCode pieces := by
  induction pieces generalizing piece with
  | nil => exact (append_nil _).symm
  | cons next pieces ih =>
    rw [inRow, code_cat, ih, piecesCode, piecesCode, flatMap_cons]

/-- The index of the last node. -/
def simpleLast (pattern : Bytes) : Nat := (simpleTree pattern).size

theorem program_simple (pattern : Bytes) :
    (simpleTree pattern).program = instr .opBranch (.number 0) (simpleLast pattern) ::
        instr .opBol (.number 0) 1 :: (textCode (segments pattern).1 ++
            (piecesCode (starPieces (segments pattern).2) ++ [instr .opEnd (.number 0) 0])) := by
  have offset : ((inRow (.terminal .bol) (simplePieces pattern)).size : Int) +
      1 = simpleLast pattern := by
    rw [simpleLast, simpleTree, Branches.size, cast_add, cast_one]
  rw [Branches.program, simpleTree, Branches.code, Regex.length_code, offset, code_inRow,
    simplePieces, piecesCode, flatMap_append, ← textCode, ← piecesCode]
  simp [Regex.code, Terminal.opcode, Terminal.opdata]

variable {pattern search : Bytes}

def simpleEngine (pattern search : Bytes) : RE :=
  ⟨(simpleTree pattern).program, search, ⟨false, false, false⟩⟩

theorem single_simple (pattern search : Bytes) :
    (simpleEngine pattern search).Single (simpleLast pattern) where
  behind := by
    have positive := (inRow (.terminal .bol) (simplePieces pattern)).size_pos
    rw [simpleLast, simpleTree, Branches.size]
    omega
  opening := by
    rw [simpleEngine, program_simple]
    rfl
  ending := by
    have length : (simpleTree pattern).code.length = simpleLast pattern :=
      Branches.length_code _
    rw [simpleEngine, Branches.program, ← length]
    exact getElem?_concat_length

theorem simple_yields (nulFree : NulFree pattern) (subject : NulFree search)
    (noNewline : ch '\n' ∉ search) {i : Nat} (inside : i ≤ search.length) (st : MatchState) :
    Yields (fun fuel =>
        (simpleEngine pattern search).matchNodes fuel 0 (-1) i) st
      (Decided (i = 0 ∧ (simpleEngine pattern search).textAt (segments pattern).1 0 ∧
        (simpleEngine pattern search).WildFrom (segments pattern).2
          (segments pattern).1.length)) := by
  let re := simpleEngine pattern search
  have program : re.fProgram = _ := program_simple pattern
  have placed := (congrArg (Placed re.fProgram 0) program).mp (Placed.self re.fProgram)
  have points : ∀ idx, idx < re.fSearch.length → re.matchAny idx = true := by
    intro idx inSubject
    have other : re.charAt idx ≠ ch '\n' := by
      intro newline
      rw [charAt, getD_eq_getElem _ _ inSubject] at newline
      exact noNewline (newline ▸ getElem_mem inSubject)
    rw [matchAny, decide_eq_true inSubject, decide_eq_true other]
    rfl
  rcases segments_plain nulFree with ⟨first, behind⟩
  have texts := placed.tail.tail
  have rest := decides_text rfl subject first.2 texts
    (decides_stars rfl subject points behind texts.right)
  have here : re.Has 1 .opBol (.number 0) 1 := ⟨placed.tail.head, by decide⟩
  have before : ((1 : Nat) : Int) < re.fProgram.length := by
    have := (List.getElem?_eq_some_iff.mp here.here).1
    omega
  apply (single_simple pattern search).yields
  by_cases atStart : i = 0
  · subst atStart
    have goesOn : re.consume .opBol (.number 0) 0 st = .ok (some 0) := rfl
    refine runs_consume here rfl before goesOn ?_
    refine Runs.imp (rest 0 st inside) fun r after decided => ?_
    simp only [zero_add] at decided
    exact decided.trans (and_iff_right rfl).symm
  · have stops : re.consume .opBol (.number 0) i st = .ok none := by
      have noBol : re.atBol i = false := by
        rw [atBol, decide_eq_false atStart]
        rfl
      rw [consume, noBol]
      rfl
    exact runs_fail here rfl before stops (iff_of_false (· rfl) fun both => atStart both.1)

/-- A text that is obtained from a simple pattern: every star is replaced by
some string. -/
inductive Obtained : Bytes → Bytes → Prop where
  | nil : Obtained [] []
  | char {c : Byte} {pattern text : Bytes} : c ≠ ch '*' →
      Obtained pattern text → Obtained (c :: pattern) (c :: text)
  | star {pattern text : Bytes} (replacement : Bytes) : Obtained pattern text →
      Obtained (ch '*' :: pattern) (replacement ++ text)

/-- The segments stand in a text behind anything, the last one at its end. -/
def Covers : List Bytes → Bytes → Prop
  | [], text => text = []
  | segment :: behind, text =>
    ∃ skipped rest, text = skipped ++ (segment ++ rest) ∧ Covers behind rest

theorem obtained_segments (pattern text : Bytes) :
    Obtained pattern text ↔
      ∃ rest, text = (segments pattern).1 ++ rest ∧ Covers (segments pattern).2 rest := by
  induction pattern generalizing text with
  | nil =>
    constructor
    · intro obtained
      cases obtained
      exact ⟨[], rfl, rfl⟩
    · rintro ⟨rest, rfl, covers⟩
      cases covers
      exact .nil
  | cons c pattern ih =>
    rw [segments]
    by_cases star : c = ch '*'
    · rw [if_pos star]
      constructor
      · intro obtained
        cases obtained with
        | char noStar _ => exact absurd star noStar
        | @star _ inner replacement obtained =>
          rcases (ih _).mp obtained with ⟨rest, rfl, covers⟩
          exact ⟨_, rfl, replacement, rest, rfl, covers⟩
      · rintro ⟨_, rfl, skipped, rest, rfl, covers⟩
        rw [star]
        exact .star skipped ((ih _).mpr ⟨rest, rfl, covers⟩)
    · rw [if_neg star]
      constructor
      · intro obtained
        cases obtained with
        | char _ obtained =>
          rcases (ih _).mp obtained with ⟨rest, rfl, covers⟩
          exact ⟨rest, rfl, covers⟩
        | star _ _ => exact absurd rfl star
      · rintro ⟨rest, rfl, covers⟩
        exact .char star ((ih _).mpr ⟨rest, rfl, covers⟩)

theorem wildFrom_iff (re : RE) (behind : List Bytes) {idx : Nat}
    (inside : idx ≤ re.fSearch.length) :
    re.WildFrom behind idx ↔ Covers behind (re.fSearch.drop idx) := by
  induction behind generalizing idx with
  | nil =>
    rw [WildFrom, Covers, drop_eq_nil_iff]
  | cons text behind ih =>
    rw [WildFrom, Covers]
    constructor
    · rintro ⟨j, later, inSubject, stands, rest⟩
      have length := congrArg List.length stands
      rw [length_take, length_drop] at length
      have split : re.fSearch.drop idx =
          (re.fSearch.drop idx).take (j - idx) ++ re.fSearch.drop j := by
        have whole := take_append_drop (j - idx) (re.fSearch.drop idx)
        rw [drop_drop, add_sub_of_le later] at whole
        exact whole.symm
      have here : re.fSearch.drop j = text ++ re.fSearch.drop (j + text.length) := by
        have whole := take_append_drop text.length (re.fSearch.drop j)
        rw [drop_drop, show _ = text from stands] at whole
        exact whole.symm
      refine ⟨_, _, split.trans (congrArg _ here), ?_⟩
      exact (ih (by omega)).mp rest
    · rintro ⟨skipped, rest, whole, covers⟩
      have length := congrArg List.length whole
      rw [length_drop, length_append, length_append] at length
      have here : re.fSearch.drop (idx + skipped.length) = text ++ rest := by
        rw [← drop_drop, whole, drop_left]
      have behindText : re.fSearch.drop (idx + skipped.length + text.length) = rest := by
        rw [← drop_drop, here, drop_left]
      refine ⟨idx + skipped.length, le_add_right _ _, by omega, ?_, ?_⟩
      · rw [textAt, here, take_left]
      · apply (ih (by omega)).mpr
        rwa [behindText]

theorem simple_obtained (pattern search : Bytes) :
    ((simpleEngine pattern search).textAt (segments pattern).1 0 ∧
        (simpleEngine pattern search).WildFrom (segments pattern).2
          (segments pattern).1.length) ↔
      Obtained pattern search := by
  rw [obtained_segments]
  constructor
  · rintro ⟨stands, rest⟩
    have first : search.take (segments pattern).1.length = (segments pattern).1 := stands
    have length := congrArg List.length first
    rw [length_take] at length
    have whole := take_append_drop (segments pattern).1.length search
    rw [first] at whole
    refine ⟨_, whole.symm, (wildFrom_iff _ _ ?_).mp rest⟩
    show _ ≤ search.length
    omega
  · rintro ⟨rest, rfl, covers⟩
    refine ⟨take_left, (wildFrom_iff _ _ ?_).mpr ?_⟩
    · show _ ≤ List.length (_ ++ rest)
      rw [length_append]
      exact le_add_right _ _
    · show Covers _ (List.drop _ (_ ++ rest))
      rwa [drop_left]

/-! ## The search with a simple pattern -/

open Fuel RECompiler

theorem searchFrom_settles (re : RE) (positions : Nat) {i : Nat}
    (misses : ∀ j, i ≤ j → j < i + positions →
      Settles (fun fuel => re.matchAt fuel j) (.ok false, [])) :
    Settles (fun fuel => re.searchFrom (fun _ => true) fuel positions i) (.ok false, []) := by
  induction positions generalizing i with
  | zero => exact Settles.const _
  | succ positions ih =>
    have rest := @ih (i + 1) fun j later before =>
      misses j (le_of_succ_le later) (by omega)
    have first := misses i (le_refl i) (by omega)
    exact Settles.bind first rest

theorem searchFrom_first (re : RE) {positions i : Nat} {registers : List Register}
    (first : Settles (fun fuel => re.matchAt fuel i) (.ok true, registers)) :
    Settles (fun fuel =>
      re.searchFrom (fun _ => true) fuel (positions + 1) i)
      (.ok true, registers) :=
  Settles.bind first (Settles.const _)

/-- `RE(pat).ContainedIn(search)` returns true. -/
def MatchesIn (pat search : Bytes) : Prop :=
  ∃ bound compiled message registers, compile bound pat = some (some compiled, message) ∧
      Settles (containedIn compiled ⟨false, false, false⟩ search 0) (.ok true, registers)

theorem matchesIn_simple (nulFree : NulFree pattern) (search : Bytes) :
    MatchesIn (simpleRegularExpression pattern) search ↔ ∃ registers, Settles (fun fuel =>
        (simpleEngine pattern search).searchFrom (fun _ => true) fuel
          (search.length + 1) 0) (.ok true, registers) := by
  have noPrefix : prefixOf (simpleTree pattern).program = none := by
    simp [prefixOf, program_simple, Program.node, instr]
  have searches (fuel : Nat) :
      containedIn ⟨(simpleTree pattern).program, none⟩
        ⟨false, false, false⟩ search 0 fuel =
      (simpleEngine pattern search).searchFrom (fun _ => true) fuel
        (search.length + 1) 0 := containedIn_unfiltered rfl
  rcases compile_tree (readsAs_simple nulFree) with ⟨message, settles⟩
  rw [noPrefix] at settles
  constructor
  · rintro ⟨bound, compiled, other, registers, compiles, found⟩
    cases settles.only bound _ compiles
    exact ⟨registers, found.congr fun fuel => (searches fuel).symm⟩
  · rintro ⟨registers, found⟩
    rcases settles.returns with ⟨bound, compiles⟩
    exact ⟨bound, _, message, registers, compiles, found.congr searches⟩

/-- A simple pattern matches the texts that are obtained from it, and only
them. -/
theorem simplePattern_matches (nulFree : NulFree pattern) (subject : NulFree search)
    (noNewline : ch '\n' ∉ search) :
    MatchesIn (simpleRegularExpression pattern) search ↔ Obtained pattern search := by
  rw [matchesIn_simple nulFree, ← simple_obtained]
  have run {i : Nat} (inside : i ≤ search.length) :=
    simple_yields nulFree subject noNewline inside (matchStart i)
  have fails {i : Nat} {after : MatchState}
      (settles : Settles (fun fuel => (simpleEngine pattern search).matchNodes
        fuel 0 (-1) i (matchStart i)) (.ok none, after)) :
      Settles (fun fuel => (simpleEngine pattern search).matchAt fuel i)
        (.ok false, []) :=
    settles.map _
  constructor
  · rintro ⟨registers, found⟩
    by_contra nothing
    have misses := searchFrom_settles (simpleEngine pattern search)
      (search.length + 1) (i := 0) fun j _ before => by
        rcases run (i := j) (by omega) with ⟨r, after, decided, settles⟩
        cases r with
        | none => exact fails settles
        | some idx =>
          exact absurd (decided.mp (Option.some_ne_none _)).2 nothing
    cases misses.unique found
  · intro holds
    rcases run (zero_le _) with ⟨r, after, decided, settles⟩
    cases r with
    | none => exact absurd rfl (decided.mpr ⟨rfl, holds⟩)
    | some idx => exact ⟨_, searchFrom_first _ (settles.map _)⟩

theorem simplePattern_matches_brackets :
    MatchesIn (simpleRegularExpression (lit "[a]*?b*")) (lit "[a]xy?b") := by
  refine (simplePattern_matches (by decide) (by decide) (by decide)).mpr ?_
  have last : Obtained (lit "?b*") (lit "?b") :=
    .char (by decide) (.char (by decide) (.star [] .nil))
  exact .char (by decide) (.char (by decide) (.char (by decide) (.star (lit "xy") last)))

end RE

end Coast
