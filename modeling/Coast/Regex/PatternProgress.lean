import Coast.Regex.PatternReading

/-!
# Progress in the pattern

The scanning functions and the readings do not go back in the pattern, and
every piece takes at least one character.
-/

namespace Coast

open Nat

namespace PatternInput

/-- Reading the pattern goes on only forwards. -/
structure Before (s after : PatternInput) : Prop where
  pattern : after.fPattern = s.fPattern
  index : s.fPatternIdx ≤ after.fPatternIdx
  parentheses : s.fNofParentheses ≤ after.fNofParentheses

namespace Before

variable {s t u : PatternInput}

theorem refl (s : PatternInput) : Before s s := ⟨rfl, le_refl _, le_refl _⟩

theorem trans (first : Before s t) (second : Before t u) : Before s u :=
  ⟨second.pattern.trans first.pattern, first.index.trans second.index,
    first.parentheses.trans second.parentheses⟩

theorem skip (s : PatternInput) (n : Nat) : Before s (s.skip n) :=
  ⟨rfl, le_add_right _ _, le_refl _⟩

theorem syntaxError (s : PatternInput) (text : Bytes) :
    Before s (s.syntaxError text) := ⟨rfl, le_refl _, le_refl _⟩

theorem goTo (before : Before s t) {i : Nat} (back : s.fPatternIdx ≤ i) :
    Before s (t.goTo i) := ⟨before.pattern, back, before.parentheses⟩

end Before

section

variable (s : PatternInput)
include s

theorem readNumber_before (dflt : Int64) : Before s (s.readNumber dflt).2 := by
  rw [readNumber]
  split
  · exact .syntaxError _ _
  · exact .skip _ _

theorem bracketMaximum_before (minimum : Int64) : Before s (s.bracketMaximum minimum).2 := by
  have number := s.readNumber_before minimum
  rw [bracketMaximum]
  split
  · exact .skip _ _
  · dsimp only
    split
    · exact number.trans (.syntaxError _ _)
    · split
      · exact (number.trans (.skip _ _)).trans (.syntaxError _ _)
      · exact number.trans (.skip _ _)

theorem bracket_before : Before s s.bracket.2 := by
  have number := (Before.skip s 1).trans ((s.skip 1).readNumber_before 1)
  rw [bracket]
  split
  · exact .skip _ _
  · dsimp only
    split
    · exact number.trans (.skip _ _)
    · split
      · exact (number.trans (.skip _ _)).trans (.syntaxError _ _)
      · exact (number.trans (.skip _ _)).trans (bracketMaximum_before _ _)

theorem hexDigits_before (digits : Nat) (val : Int) : Before s (s.hexDigits digits val).2 := by
  induction digits generalizing s val with
  | zero => exact .refl s
  | succ digits ih =>
    rw [hexDigits]
    split
    · exact .refl s
    · dsimp only
      split
      · exact (Before.skip s 1).trans (ih _ _)
      · split
        · exact (Before.skip s 1).trans (ih _ _)
        · exact .syntaxError _ _

theorem octalDigits_before (val : Int) : Before s (s.octalDigits val).2 := by
  rw [octalDigits]
  split
  · dsimp only
    split
    · exact (Before.skip s 1).trans (.skip _ 1)
    · exact .skip s 1
  · exact .refl s

theorem escape_before (more : s.fPatternIdx + 1 < s.fPattern.length) :
    Before (s.skip 2) s.escape.2 := by
  rw [escape, if_neg (by omega)]
  dsimp only
  repeat' split
  all_goals first
    | exact .refl _
    | exact hexDigits_before _ _ _
    | exact octalDigits_before _ _

theorem escape_weak : Before s s.escape.2 := by
  by_cases more : s.fPatternIdx + 1 < s.fPattern.length
  · exact (Before.skip s 2).trans (s.escape_before more)
  · rw [escape, if_pos (by omega)]
    exact .syntaxError _ _

theorem escape_strict (fine : s.escape.1 ≠ .error) : s.fPatternIdx < s.escape.2.fPatternIdx := by
  have more : s.fPatternIdx + 1 < s.fPattern.length := by
    by_contra short
    rw [escape, if_pos (by omega)] at fine
    exact fine rfl
  have index := (s.escape_before more).index
  have skipped : (s.skip 2).fPatternIdx = s.fPatternIdx + 2 := rfl
  omega

theorem posixCharacterClass_before : Before s s.posixCharacterClass.2 := by
  rw [posixCharacterClass]
  split
  · split
    · exact (Before.skip _ _).trans (.skip _ _)
    · exact ((Before.skip _ _).trans (.syntaxError _ _)).trans (.syntaxError _ _)
  · exact (Before.skip _ _).trans (.syntaxError _ _)

end

def ClassTurn.Keeps (s : PatternInput) : ClassTurn → Prop
  | .again after _ => Before s after
  | .endClass after _ => after = s
  | .failed _ => True

theorem classSimple_keeps {s t : PatternInput} (before : Before s t) (scan : ClassScan) (c : Byte) :
    (t.classSimple scan c).Keeps s := by
  rw [classSimple]
  repeat' split
  all_goals first
    | exact trivial
    | exact before

theorem classTurn_keeps (s : PatternInput) (scan : ClassScan) : (s.classTurn scan).Keeps s := by
  have escaped := s.escape_weak
  have next := Before.skip s 1
  rw [classTurn]
  split
  · split
    · exact classSimple_keeps next _ _
    · exact rfl
  · split
    · split
      · exact next
      · exact classSimple_keeps (.refl s) _ _
    · split
      · rw [classEscape]
        split
        · rename_i result
          rw [result] at escaped
          exact classSimple_keeps escaped _ _
        · rename_i result
          rw [result] at escaped
          dsimp only
          repeat' split
          all_goals first
            | exact trivial
            | exact escaped
        · exact trivial
      · split
        · rw [classMinus]
          dsimp only
          repeat' split
          all_goals first
            | exact classSimple_keeps next _ _
            | exact next
            | exact .refl s
        · exact classSimple_keeps next _ _

theorem endClass_before (s : PatternInput) (scan : ClassScan) : Before s (s.endClass scan).2 := by
  rw [endClass]
  split
  · exact .syntaxError _ _
  · exact .skip _ _

theorem lookAhead_same (s : PatternInput) {c : Byte} {t : PatternInput}
    (looks : s.lookAhead = (some c, t)) :
    Before s t ∧ t.fPatternIdx = s.fPatternIdx := by
  have escaped := s.escape_weak
  rw [lookAhead] at looks
  split at looks
  · dsimp only at looks
    split at looks
    · split at looks
      · cases looks
      · cases looks
        exact ⟨escaped.goTo (le_refl _), rfl⟩
    · cases looks
      exact ⟨escaped.goTo (le_refl _), rfl⟩
  · cases looks
    exact ⟨.refl s, rfl⟩

/-- The state after a turn: a turn that goes on takes a character. -/
def AtomTurn.Keeps (s : PatternInput) : AtomTurn → Prop
  | .again after _ => Before s after ∧ s.fPatternIdx < after.fPatternIdx
  | .exit after => Before s after
  | .failed _ => True

theorem atomTake_keeps {s t : PatternInput} (before : Before s t)
    (same : t.fPatternIdx = s.fPatternIdx) (strAtom : Bytes) :
    (t.atomTake strAtom).Keeps s := by
  have escaped := before.trans t.escape_weak
  have back := escaped.goTo (le_of_eq same.symm)
  rw [atomTake]
  dsimp only
  split
  · exact before
  · split
    · split
      · exact trivial
      · exact before
    · split
      · split
        · exact back
        · split
          · rename_i value result
            have strict := t.escape_strict (by rw [result]; nofun)
            exact ⟨escaped, by omega⟩
          · exact back
      · have next := before.trans (.skip t 1)
        have index : (t.skip 1).fPatternIdx = t.fPatternIdx + 1 := rfl
        exact ⟨next, by omega⟩

theorem atomTurn_keeps (s : PatternInput) (strAtom : Bytes) : (s.atomTurn strAtom).Keeps s := by
  rw [atomTurn]
  split
  · split
    · exact trivial
    · rename_i result
      rcases s.lookAhead_same result with ⟨before, same⟩
      split
      · exact before
      · exact atomTake_keeps before same strAtom
  · exact atomTake_keeps (.refl s) rfl strAtom

theorem atomLoop_before {turns : Nat} {s t : PatternInput} {strAtom text : Bytes}
    (reads : s.atomLoop turns strAtom = (some text, t)) :
    Before s t ∧ (text = strAtom ∨ s.fPatternIdx < t.fPatternIdx) := by
  induction turns generalizing s strAtom with
  | zero =>
    cases reads
    exact ⟨.refl _, .inl rfl⟩
  | succ turns ih =>
    have keeps := s.atomTurn_keeps strAtom
    rw [atomLoop] at reads
    split at reads
    · cases reads
      exact ⟨.refl _, .inl rfl⟩
    · split at reads
      · rename_i turn
        rw [turn] at keeps
        rcases ih reads with ⟨later, _⟩
        exact ⟨keeps.1.trans later, .inr (lt_of_lt_of_le keeps.2 later.index)⟩
      · rename_i turn
        rw [turn] at keeps
        cases reads
        exact ⟨keeps, .inl rfl⟩
      · cases reads

theorem atomText_strict {s t : PatternInput} {text : Bytes} (reads : s.atomText = (some text, t)) :
    Before s t ∧ s.fPatternIdx < t.fPatternIdx := by
  rw [atomText] at reads
  split at reads
  · cases reads
  · rename_i notEmpty
    rcases atomLoop_before reads with ⟨before, same | strict⟩
    · exact absurd (same ▸ reads) (notEmpty t)
    · exact ⟨before, strict⟩

end PatternInput

open PatternInput Reading

namespace Reading

variable {α β : Type}

def Keeps (r : Reading α) : Prop := ∀ s a t, r s = some (.ok (a, t)) → Before s t

/-- A character is taken, where there is one that can begin a piece. -/
def Takes (r : Reading α) : Prop :=
  ∀ s a t, r s = some (.ok (a, t)) → Before s t ∧ s.fPatternIdx < t.fPatternIdx

theorem Keeps.bind {first : Reading α} {rest : α → Reading β}
    (one : Keeps first) (other : ∀ a, Keeps (rest a)) :
    Keeps (first >>= rest) := by
  intro s b u reads
  rcases bind_ok reads with ⟨a, t, here, later⟩
  exact (one s a t here).trans (other a t b u later)

theorem Takes.bind {first : Reading α} {rest : α → Reading β}
    (one : Takes first) (other : ∀ a, Keeps (rest a)) :
    Takes (first >>= rest) := by
  intro s b u reads
  rcases bind_ok reads with ⟨a, t, here, later⟩
  have after := other a t b u later
  rcases one s a t here with ⟨before, strict⟩
  exact ⟨before.trans after, lt_of_lt_of_le strict after.index⟩

theorem Keeps.takes {first : Reading α} {rest : α → Reading β}
    (one : Keeps first) (other : ∀ a, Takes (rest a)) :
    Takes (first >>= rest) := by
  intro s b u reads
  rcases bind_ok reads with ⟨a, t, here, later⟩
  have before := one s a t here
  rcases other a t b u later with ⟨after, strict⟩
  exact ⟨before.trans after, lt_of_le_of_lt before.index strict⟩

theorem Takes.keeps {r : Reading α} (takes : Takes r) : Keeps r :=
  fun s a t reads => (takes s a t reads).1

theorem Keeps.pure (a : α) : Keeps (pure a) := by
  intro s b t reads
  cases reads
  exact .refl s

theorem Keeps.stop (why : Stop) : Keeps (stop why : Reading α) := nofun

theorem Takes.stop (why : Stop) : Takes (Reading.stop why : Reading α) := nofun

theorem Keeps.look (f : PatternInput → α) : Keeps (look f) := by
  intro s b t reads
  cases reads
  exact .refl s

theorem Keeps.skip (n : Nat) : Keeps (step (·.skip n)) := by
  intro s b t reads
  cases reads
  exact .skip s n

theorem Takes.skip : Takes (step (·.skip 1)) := by
  intro s b t reads
  cases reads
  exact ⟨.skip s 1, lt_succ_self _⟩

theorem Keeps.scan {f : PatternInput → Option α × PatternInput}
    (before : ∀ s, Before s (f s).2) : Keeps (scan f) := by
  intro s a t reads
  have result := before s
  rw [scan_ok reads] at result
  exact result

theorem Keeps.ite {c : Prop} [Decidable c] {one other : Reading α}
    (first : Keeps one) (second : Keeps other) :
    Keeps (if c then one else other) := by
  split
  · exact first
  · exact second

theorem Takes.ite {c : Prop} [Decidable c] {one other : Reading α}
    (first : Takes one) (second : Takes other) :
    Takes (if c then one else other) := by
  split
  · exact first
  · exact second

end Reading

namespace Regex

theorem readItems_keeps (fuel : Nat) (items : ClassScan) : Keeps (readItems fuel items) := by
  induction fuel generalizing items with
  | zero => exact fun _ _ _ reads => nomatch reads
  | succ fuel ih =>
    intro s a t reads
    have turn := s.classTurn_keeps items
    rw [readItems] at reads
    dsimp only at reads
    split at reads
    · cases reads
    · split at reads
      · cases reads
      · split at reads
        · rename_i after
          rw [after] at turn
          exact Before.trans turn (ih _ _ _ _ reads)
        · rename_i after
          rw [after] at turn
          cases turn
          exact Keeps.scan (fun s => s.endClass_before _) _ _ _ reads
        · cases reads

theorem readClass_takes (fuel : Nat) : Takes (readClass fuel) := by
  refine Takes.skip.bind fun _ => (Keeps.look _).bind fun _ => ?_
  refine Keeps.ite (Keeps.stop _) ((Keeps.look _).bind fun _ => ?_)
  refine Keeps.ite ((Keeps.skip 1).bind fun _ => ?_) ((Keeps.look _).bind fun items => ?_)
  · exact (Keeps.scan posixCharacterClass_before).bind fun _ => .pure _
  · exact (readItems_keeps fuel items).bind fun _ => .pure _

theorem readAtom_takes : Takes readAtom := by
  refine Takes.bind (fun s a t reads => ?_) fun _ => .pure _
  exact atomText_strict (scan_ok reads)

theorem readEscape_takes : Takes readEscape := by
  intro s a t reads
  have escaped := s.escape_weak
  have strict := s.escape_strict
  rw [readEscape, look_bind, advance_bind, look_bind] at reads
  cases result : s.escape.1 with
  | charClass =>
    rw [result] at reads strict
    cases reads
    exact ⟨escaped, strict nofun⟩
  | complex =>
    rw [result] at reads strict
    cases reads
    exact ⟨escaped, strict nofun⟩
  | backref =>
    rw [result] at reads strict
    dsimp only at reads
    rw [look_bind] at reads
    split at reads
    · cases reads
    · cases reads
      exact ⟨escaped, strict nofun⟩
  | error =>
    rw [result] at reads
    cases reads
  | char value =>
    rw [result] at reads
    dsimp only at reads
    rw [step_bind] at reads
    rcases readAtom_takes _ _ _ reads with ⟨before, atom⟩
    exact ⟨(escaped.goTo (le_refl _)).trans before, atom⟩

theorem readSimple_takes (fuel : Nat) : Takes (readSimple fuel) := by
  refine (Keeps.look _).takes fun c => ?_
  refine Takes.ite (Takes.skip.bind fun _ => .pure _) ?_
  refine Takes.ite (Takes.skip.bind fun _ => .pure _) ?_
  refine Takes.ite (Takes.skip.bind fun _ => .pure _) ?_
  refine Takes.ite (readClass_takes fuel) ?_
  refine Takes.ite (Takes.stop _) ?_
  exact Takes.ite readEscape_takes readAtom_takes

theorem readClosure_keeps (operand : Regex) : Keeps (readClosure operand) := by
  refine (Keeps.look _).bind fun _ => Keeps.ite (.pure _) ?_
  refine (Keeps.look _).bind fun _ => Keeps.ite ?_ (Keeps.ite ?_ (.pure _))
  · refine (Keeps.skip 1).bind fun _ => Keeps.ite (.stop _) ?_
    refine (Keeps.look _).bind fun _ => Keeps.ite ?_ (.pure _)
    exact (Keeps.skip 1).bind fun _ => .pure _
  · refine Keeps.ite (.stop _) ((Keeps.scan bracket_before).bind fun _ => ?_)
    exact Keeps.ite (.stop _) (.pure _)

section

variable {inner : Reading Regex} (takes : Takes inner)

include takes

theorem readPiece_takes (fuel : Nat) : Takes (readPiece inner fuel) := by
  refine (Keeps.look _).takes fun _ => Takes.bind ?_ readClosure_keeps
  exact Takes.ite takes (readSimple_takes fuel)

theorem readPieces_keeps (fuel turns : Nat) (last : Regex) :
    Keeps (readPieces inner fuel turns last) := by
  have piece := (readPiece_takes takes fuel).keeps
  induction turns generalizing last with
  | zero => exact fun _ _ _ reads => nomatch reads
  | succ turns ih =>
    refine (Keeps.look _).bind fun _ => Keeps.ite ?_ (.pure _)
    refine piece.bind fun _ => Keeps.ite ?_ ?_
    · refine (Keeps.look _).bind fun _ => Keeps.ite ?_ (.pure _)
      exact piece.bind fun _ => .stop _
    · exact (ih _).bind fun _ => .pure _

theorem readBranch_keeps (fuel : Nat) : Keeps (readBranch inner fuel) := by
  refine (Keeps.look _).bind fun _ => Keeps.ite ?_ (.pure _)
  exact (readPiece_takes takes fuel).keeps.bind (readPieces_keeps takes fuel fuel)

theorem readBranches_keeps (fuel turns : Nat) (first : Option Regex) :
    Keeps (readBranches inner fuel turns first) := by
  induction turns generalizing first with
  | zero => exact fun _ _ _ reads => nomatch reads
  | succ turns ih =>
    refine (Keeps.look _).bind fun _ => Keeps.ite ?_ (.pure _)
    refine (Keeps.skip 1).bind fun _ => ?_
    refine (readBranch_keeps takes fuel).bind fun _ => ?_
    exact (ih _).bind fun _ => .pure _

end

theorem readGroup_takes (fuel : Nat) : Takes (readGroup fuel) := by
  induction fuel with
  | zero => exact fun _ _ _ reads => nomatch reads
  | succ fuel ih =>
    intro s a t reads
    simp only [readGroup, look_bind, step_bind] at reads
    have opened : Before s
        { s.skip 1 with fNofParentheses := s.fNofParentheses + 1 } :=
      ⟨rfl, le_add_right _ _, le_add_right _ _⟩
    rcases bind_ok reads with ⟨first, u, here, rest⟩
    have branch := readBranch_keeps ih fuel _ _ _ here
    rcases bind_ok rest with ⟨body, v, here, rest⟩
    have branches := readBranches_keeps ih fuel fuel first _ _ _ here
    have inside := branch.trans branches
    rw [look_bind] at rest
    split at rest
    · rw [step_bind] at rest
      have closed : Before v t := by
        cases body with
        | none => cases rest
        | some body =>
          cases rest
          exact ⟨rfl, le_add_right _ _, le_refl _⟩
      have after := inside.trans closed
      exact ⟨opened.trans after, after.index⟩
    · cases rest

/-- Reading leaves the pattern as it is. -/
theorem readExpr_pattern {fuel : Nat} {s t : PatternInput} {body : Branches}
    (reads : readExpr fuel s = some (.ok (body, t))) :
    t.fPattern = s.fPattern := by
  rw [readExpr, step_bind] at reads
  have takes := readGroup_takes fuel
  rcases bind_ok reads with ⟨first, u, here, rest⟩
  rcases bind_ok rest with ⟨result, v, there, last⟩
  have branch := readBranch_keeps takes fuel _ first u here
  have branches := readBranches_keeps takes fuel fuel first u result v there
  have pattern := branches.pattern.trans branch.pattern
  cases result with
  | none => cases last
  | some body =>
    cases last
    exact pattern

end Regex

end Coast
