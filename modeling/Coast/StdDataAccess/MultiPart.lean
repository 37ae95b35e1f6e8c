import Coast.StdDataAccess.FilePart

/-!
# Parts between boundaries

The text between two lines with the boundary is put together again from the
lines it is read in, long ones in pieces.
-/

namespace Coast

open URLUtils HTTPConstants List

theorem not_infix_concat {bound text : Bytes} {c : Byte}
    (some' : bound ≠ []) (inside : c ∉ bound) (absent : ¬ bound <:+: text) :
    ¬ bound <:+: text ++ [c] := by
  intro found
  rcases infix_concat_iff.mp found with atEnd | before
  · rcases suffix_concat_iff.mp atEnd with empty | ⟨front, isBound, -⟩
    · exact some' empty
    · apply inside
      rw [isBound]
      exact mem_append_right front mem_cons_self
  · exact absent before

theorem first_piece (limit : Nat) (text : Bytes) :
    (LF ∉ text ∧ text.length ≤ limit) ∨
      (∃ line later, text = line ++ LF :: later ∧ LF ∉ line ∧ line.length ≤ limit) ∨
      ∃ line later, text = line ++ later ∧ LF ∉ line ∧
        line.length = limit ∧ later ≠ [] ∧ later.head? ≠ some LF := by
  have inside : LF ∉ text.takeWhile (· ≠ LF) := by
    intro member
    have passed := mem_takeWhile_imp member
    simp at passed
  have whole : text.takeWhile (· ≠ LF) ++ text.dropWhile (· ≠ LF) = text :=
    takeWhile_append_dropWhile
  by_cases fits : (text.takeWhile (· ≠ LF)).length ≤ limit
  · cases behind : text.dropWhile (· ≠ LF) with
    | nil =>
      rw [behind, append_nil] at whole
      rw [whole] at inside fits
      exact .inl ⟨inside, fits⟩
    | cons c later =>
      have stops := head?_dropWhile_not (· ≠ LF) text
      rw [behind] at stops
      have isLF : c = LF := by simpa using stops
      rw [behind, isLF] at whole
      exact .inr (.inl ⟨_, later, whole.symm, inside, fits⟩)
  · have longer : limit < (text.takeWhile (· ≠ LF)).length := by omega
    have some' : (text.takeWhile (· ≠ LF)).drop limit ≠ [] := by
      intro nothing
      rw [drop_eq_nil_iff] at nothing
      omega
    refine .inr (.inr ⟨(text.takeWhile (· ≠ LF)).take limit,
      (text.takeWhile (· ≠ LF)).drop limit ++ text.dropWhile (· ≠ LF), ?_,
      fun member => inside (mem_of_mem_take member), ?_, ?_, ?_⟩)
    · rw [← append_assoc, take_append_drop, whole]
    · rw [length_take]
      omega
    · intro nothing
      exact some' (append_eq_nil_iff.mp nothing).1
    · exact TextStream.head?_ne some' (fun member => inside (mem_of_mem_drop member)) _

namespace HTTPPostRequestBodyParser

def lineEnd (newLineFoundLastLine : Bool) (body : Bytes) : Bytes :=
  if newLineFoundLastLine && !body.isEmpty then [LF] else []

variable {bound : Bytes}

theorem readToBoundaryLoop_piece (boundary : Boundary bound)
    {text line : Bytes} {after : TextStream} (absent : ¬ bound <:+: line)
    (reads : (TextStream.ofText text).appendUntil LF 4096 = (line, after))
    (fuel : Nat) (body unparsed : Bytes) (newLineFoundLastLine : Bool) :
    readToBoundaryLoop bound (fuel + 1) (.ofText text) body unparsed
        newLineFoundLastLine =
      readToBoundaryLoop bound fuel
        (if after.peek.1 = some LF then after.peek.2.get.2 else after.peek.2)
        (body ++ lineEnd newLineFoundLastLine body ++ line)
        (unparsed ++ line ++ if after.peek.1 = some LF then [LF] else [])
        (decide (after.peek.1 = some LF)) := by
  rw [readToBoundaryLoop, TextStream.good_ofText, reads]
  simp only [lineKind_text boundary absent, Bool.not_true,
    Bool.false_eq_true, if_false, decide_eq_true_eq]
  rfl

theorem begun_piece {body text line later : Bytes} (ends : Bytes)
    (begun : body ≠ [] ∨ text ≠ [] ∧ text.head? ≠ some LF)
    (isText : text = line ++ later) (first : line = [] → later.head? = some LF) :
    body ++ ends ++ line ≠ [] := by
  intro nothing
  rcases append_eq_nil_iff.mp nothing with ⟨front, noLine⟩
  rcases begun with filled | ⟨-, starts⟩
  · exact filled (append_eq_nil_iff.mp front).1
  · apply starts
    rw [isText, noLine]
    exact first noLine

variable (boundary : Boundary bound)
include boundary

/-- A text is put together again from its lines. -/
theorem readToBoundaryLoop_text (rest : Bytes) (text body unparsed : Bytes) (fuel : Nat)
    (newLineFoundLastLine : Bool) (enough : text.length + 1 ≤ fuel)
    (begun : body ≠ [] ∨ text ≠ [] ∧ text.head? ≠ some LF) (absent : ¬ bound <:+: text) :
    ∃ left, fuel ≤ left + text.length + 1 ∧
      readToBoundaryLoop bound fuel (.ofText (text ++ LF :: rest)) body
          unparsed newLineFoundLastLine =
        readToBoundaryLoop bound left (.ofText rest)
          (body ++ lineEnd newLineFoundLastLine body ++ text)
          (unparsed ++ (text ++ [LF])) true := by
  induction size : text.length using Nat.strong_induction_on
    generalizing text body unparsed fuel newLineFoundLastLine with
  | _ n ih =>
    obtain ⟨m, isFuel⟩ : ∃ m, fuel = m + 1 := ⟨fuel - 1, by omega⟩
    rcases first_piece 4096 text with ⟨inside, fits⟩ |
      ⟨line, later, isText, inside, fits⟩ |
      ⟨line, later, isText, inside, long, some', first⟩
    · -- the last line of the text
      have reads : (TextStream.ofText (text ++ LF :: rest)).appendUntil LF
          4096 = (text, .ofText (LF :: rest)) :=
        TextStream.appendUntil_line (by decide) inside fits
      refine ⟨m, by omega, ?_⟩
      rw [isFuel, readToBoundaryLoop_piece boundary absent reads, append_assoc unparsed]
      rfl
    · -- a line with others behind it
      have front : line <:+: text := ⟨[], LF :: later, by rw [isText]; rfl⟩
      have behind : later <:+: text := ⟨line ++ [LF], [], by rw [isText]; simp⟩
      have total : text.length = line.length + (later.length + 1) := by
        rw [isText, length_append, length_cons]
      have whole : text ++ LF :: rest = line ++ LF :: (later ++ LF :: rest) := by
        rw [isText, append_assoc]
        rfl
      have reads : (TextStream.ofText (text ++ LF :: rest)).appendUntil LF
          4096 = (line, .ofText (LF :: (later ++ LF :: rest))) := by
        rw [whole]
        exact TextStream.appendUntil_line (by decide) inside fits
      have piece := readToBoundaryLoop_piece boundary
        (fun found => absent (found.trans front)) reads m body unparsed
        newLineFoundLastLine
      have filled := begun_piece (lineEnd newLineFoundLastLine body) begun isText (fun _ => rfl)
      rcases ih later.length (by omega) later (body ++ lineEnd newLineFoundLastLine body ++ line)
        (unparsed ++ line ++ [LF]) m true (by omega) (.inl filled)
        (fun found => absent (found.trans behind)) rfl with
        ⟨left, enough', reached⟩
      have ended : lineEnd true (body ++ lineEnd newLineFoundLastLine body ++ line) = [LF] := by
        rw [lineEnd, isEmpty_eq_false_iff.mpr filled]
        rfl
      refine ⟨left, by omega, ?_⟩
      rw [isFuel, piece]
      refine reached.trans ?_
      rw [ended, isText]
      simp only [append_assoc, cons_append, nil_append]
    · -- a piece of a long line
      have front : line <:+: text := ⟨[], later, by rw [isText]; rfl⟩
      have behind : later <:+: text := ⟨line, [], by rw [isText, append_nil]⟩
      have total : text.length = line.length + later.length := by
        rw [isText, length_append]
      have whole : text ++ LF :: rest = line ++ (later ++ LF :: rest) := by
        rw [isText, append_assoc]
      have more : later ++ LF :: rest ≠ [] := fun nothing =>
        some' (append_eq_nil_iff.mp nothing).1
      have reads : (TextStream.ofText (text ++ LF :: rest)).appendUntil LF
          4096 = (line, .ofText (later ++ LF :: rest)) := by
        rw [whole, ← long]
        exact TextStream.appendUntil_cut (by omega) inside more
      have next : (TextStream.ofText (later ++ LF :: rest)).peek =
            (later.head?, .ofText (later ++ LF :: rest)) := by
        cases later with
        | nil => exact absurd rfl some'
        | cons c later => rfl
      have piece := readToBoundaryLoop_piece boundary
        (fun found => absent (found.trans front)) reads m body unparsed
        newLineFoundLastLine
      rw [next, if_neg first, if_neg first, decide_eq_false first, append_nil] at piece
      have filled := begun_piece (lineEnd newLineFoundLastLine body) begun isText (fun nothing => by
          rw [nothing] at long
          cases long)
      rcases ih later.length (by omega) later (body ++ lineEnd newLineFoundLastLine body ++ line)
        (unparsed ++ line) m false (by omega) (.inl filled)
        (fun found => absent (found.trans behind)) rfl with
        ⟨left, enough', reached⟩
      refine ⟨left, by omega, ?_⟩
      rw [isFuel, piece, reached, isText]
      simp only [lineEnd, Bool.false_and, Bool.false_eq_true, if_false, append_assoc, nil_append]

theorem not_mem_line {tail : Bytes} (plain : LF ∉ tail) : LF ∉ dashes ++ (bound ++ tail) := by
  intro member
  rcases mem_append.mp member with inDashes | behind
  · exact absurd inDashes (by decide)
  · rcases mem_append.mp behind with inBound | inTail
    · exact (boundary.plain LF inBound).2.2 rfl
    · exact plain inTail

theorem length_line {tail : Bytes} (short : tail.length ≤ 2) :
    (dashes ++ (bound ++ tail)).length ≤ 4096 := by
  have long := boundary.short
  have two : dashes.length = 2 := rfl
  rw [length_append, length_append, two]
  omega

theorem readToBoundaryLoop_part (rest : Bytes) {text : Bytes} (unparsed : Bytes) (fuel : Nat)
    (newLineFoundLastLine : Bool) (enough : text.length + 3 ≤ fuel) (some' : text ≠ [])
    (first : text.head? ≠ some LF) (absent : ¬ bound <:+: text) :
    ∃ left, readToBoundaryLoop bound fuel (.ofText (text ++ CR :: LF :: rest))
        [] unparsed newLineFoundLastLine =
      readToBoundaryLoop bound (left + 1) (.ofText rest) (text ++ [CR])
        (unparsed ++ (text ++ [CR] ++ [LF])) true := by
  have inside : CR ∉ bound := fun member => (boundary.plain CR member).2.1 rfl
  have begins : (text ++ [CR]).head? ≠ some LF := by
    cases text with
    | nil => exact absurd rfl some'
    | cons c text => exact first
  have noEnd : lineEnd newLineFoundLastLine [] = [] := by
    rw [lineEnd, isEmpty_nil, Bool.not_true, Bool.and_false]
    rfl
  rcases readToBoundaryLoop_text boundary rest (text ++ [CR]) [] unparsed fuel
    newLineFoundLastLine (by
      rw [length_append, length_singleton]
      omega)
    (.inr ⟨fun nothing => some' (append_eq_nil_iff.mp nothing).1, begins⟩)
    (not_infix_concat boundary.ne_nil inside absent) with
    ⟨left, enough', reached⟩
  rw [length_append, length_singleton] at enough'
  obtain ⟨n, isLeft⟩ : ∃ n, left = n + 1 := ⟨left - 1, by omega⟩
  rw [noEnd, isLeft] at reached
  exact ⟨n, by rw [append_cons]; exact reached⟩

theorem readToBoundaryLoop_delimiter {input tail : Bytes} {after : TextStream}
    (reads : (TextStream.ofText input).appendUntil LF 4096 = (dashes ++ (bound ++ tail), after))
    (left : Nat) (text unparsed : Bytes) (newLineFoundLastLine : Bool) :
    ∃ unparsed', readToBoundaryLoop bound (left + 1) (.ofText input)
        (text ++ [CR]) unparsed newLineFoundLastLine =
      some ⟨match strChr tail (ch '-') with
          | some dash => decide (tail.getD (dash + 1) 0 = ch '-')
          | none => false,
        text, unparsed',
        if after.peek.1 = some LF then after.peek.2.get.2
        else after.peek.2⟩ := by
  have filled : (text ++ [CR]).isEmpty = false := by
    cases text with
    | nil => rfl
    | cons c text => rfl
  refine ⟨unparsed ++ (dashes ++ (bound ++ tail)) ++
    (if after.peek.1 = some LF then [LF] else []), ?_⟩
  rw [readToBoundaryLoop, TextStream.good_ofText, reads, filled]
  simp only [lineKind_delimiter boundary, Bool.not_true, Bool.false_eq_true,
    if_false, decide_eq_true_eq]
  have trimmed : trimENDL (text ++ [CR]) = text := trimENDL_cr text
  refine congrArg some ?_
  rw [ReadToBoundary.mk.injEq]
  exact ⟨rfl, trimmed, rfl, rfl⟩

theorem readToBoundaryLoop_next (rest : Bytes) {text : Bytes} (unparsed : Bytes) (fuel : Nat)
    (newLineFoundLastLine : Bool) (enough : text.length + 3 ≤ fuel) (some' : text ≠ [])
    (first : text.head? ≠ some LF) (absent : ¬ bound <:+: text) :
    ∃ unparsed', readToBoundaryLoop bound fuel
        (.ofText (text ++ crlf ++ dashes ++ bound ++ crlf ++ rest)) []
        unparsed newLineFoundLastLine =
      some ⟨false, text, unparsed', .ofText rest⟩ := by
  have whole : text ++ crlf ++ dashes ++ bound ++ crlf ++ rest =
      text ++ CR :: LF :: (dashes ++ (bound ++ [CR]) ++ LF :: rest) := by
    simp [crlf]
  have reads : (TextStream.ofText
      (dashes ++ (bound ++ [CR]) ++ LF :: rest)).appendUntil LF 4096 =
        (dashes ++ (bound ++ [CR]), .ofText (LF :: rest)) :=
    TextStream.appendUntil_line (by decide)
      (not_mem_line boundary (by decide)) (length_line boundary (by decide))
  rcases readToBoundaryLoop_part boundary (dashes ++ (bound ++ [CR]) ++ LF :: rest) unparsed fuel
    newLineFoundLastLine enough some' first absent with ⟨left, reached⟩
  rcases readToBoundaryLoop_delimiter boundary reads left text
    (unparsed ++ (text ++ [CR] ++ [LF])) true with ⟨unparsed', ended⟩
  exact ⟨unparsed', by rw [whole, reached, ended]; rfl⟩

theorem readToBoundaryLoop_last {text : Bytes} (unparsed : Bytes) (fuel : Nat)
    (newLineFoundLastLine : Bool) (enough : text.length + 3 ≤ fuel)
    (some' : text ≠ []) (first : text.head? ≠ some LF) (absent : ¬ bound <:+: text) :
    ∃ unparsed' input, readToBoundaryLoop bound fuel
        (.ofText (text ++ crlf ++ dashes ++ bound ++ dashes)) []
        unparsed newLineFoundLastLine =
      some ⟨true, text, unparsed', input⟩ := by
  have whole : text ++ crlf ++ dashes ++ bound ++ dashes =
      text ++ CR :: LF :: (dashes ++ (bound ++ dashes)) := by
    simp [crlf]
  have reads : (TextStream.ofText (dashes ++ (bound ++ dashes))).appendUntil
      LF 4096 = (dashes ++ (bound ++ dashes), ⟨[], true, false⟩) :=
    TextStream.appendUntil_last (cons_ne_nil _ _)
      (not_mem_line boundary (by decide)) (length_line boundary (by decide))
  rcases readToBoundaryLoop_part boundary (dashes ++ (bound ++ dashes))
    unparsed fuel newLineFoundLastLine enough some' first absent with
    ⟨left, reached⟩
  rcases readToBoundaryLoop_delimiter boundary reads left text
    (unparsed ++ (text ++ [CR] ++ [LF])) true with ⟨unparsed', ended⟩
  exact ⟨unparsed', _, by rw [whole, reached, ended]; rfl⟩

/-- A boundary in front of everything is skipped. -/
theorem readToBoundaryLoop_opening
    (rest unparsed : Bytes) (fuel : Nat) (newLineFoundLastLine : Bool) :
    ∃ unparsed', readToBoundaryLoop bound (fuel + 1)
        (.ofText (dashes ++ bound ++ crlf ++ rest)) [] unparsed
        newLineFoundLastLine =
      readToBoundaryLoop bound fuel (.ofText rest) [] unparsed' true := by
  have whole : dashes ++ bound ++ crlf ++ rest = dashes ++ (bound ++ [CR]) ++ LF :: rest := by
    simp [crlf]
  have reads : (TextStream.ofText
      (dashes ++ (bound ++ [CR]) ++ LF :: rest)).appendUntil LF 4096 =
        (dashes ++ (bound ++ [CR]), .ofText (LF :: rest)) :=
    TextStream.appendUntil_line (by decide)
      (not_mem_line boundary (by decide)) (length_line boundary (by decide))
  refine ⟨unparsed ++ (dashes ++ (bound ++ [CR])) ++ [LF], ?_⟩
  rw [whole, readToBoundaryLoop, TextStream.good_ofText, reads]
  simp only [isEmpty_nil, lineKind_opening boundary, Bool.not_true, Bool.false_eq_true, if_false]
  rfl

end HTTPPostRequestBodyParser

end Coast
