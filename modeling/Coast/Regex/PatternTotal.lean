import Coast.Regex.PatternProgress
import Mathlib.Data.List.GetD

/-!
# Every pattern has a reading

The bounds of the readings are met: what is left of the pattern gets smaller.
-/

namespace Coast

open PatternInput Reading Nat

namespace PatternInput

def remaining (s : PatternInput) : Nat := s.fPattern.length - s.fPatternIdx

theorem more_iff (s : PatternInput) : s.more = true ↔ 0 < s.remaining := by
  rw [more, decide_eq_true_eq, remaining]
  omega

variable {s : PatternInput}

theorem Before.remaining {t : PatternInput} (before : Before s t) : t.remaining ≤ s.remaining := by
  have index := before.index
  rw [PatternInput.remaining, PatternInput.remaining, before.pattern]
  omega

theorem remaining_lt {t : PatternInput} (before : Before s t)
    (strict : s.fPatternIdx < t.fPatternIdx) (more : s.more = true) :
    t.remaining < s.remaining := by
  rw [more_iff] at more
  rw [remaining] at more ⊢
  rw [remaining, before.pattern]
  omega

theorem more_of_cur (some_ : s.cur ≠ 0) : s.more = true := by
  by_contra ended
  refine some_ ?_
  rw [more, decide_eq_true_eq] at ended
  rw [cur, charAt, List.getD_eq_default _ _ (not_lt.mp ended)]

/-- The turns that are left of the loop over a bracket expression: only the
beginning of a range at the end of the pattern takes no character. -/
def turnsLeft (s : PatternInput) (scan : ClassScan) : Nat :=
  2 * s.remaining + if scan.definingRange then 0 else 1

def ClassTurn.Shortens (bound : Nat) : ClassTurn → Prop
  | .again after scan => turnsLeft after scan < bound
  | .endClass _ _ => True
  | .failed _ => True

theorem classSimple_shortens {t : PatternInput} (scan scan' : ClassScan)
    (c : Byte) (fewer : t.remaining < s.remaining) :
    (t.classSimple scan c).Shortens (turnsLeft s scan') := by
  have turns (scan : ClassScan) : turnsLeft t scan < turnsLeft s scan' := by
    rw [turnsLeft, turnsLeft]
    split <;> split <;> omega
  rw [classSimple]
  repeat' split
  all_goals first
    | exact trivial
    | exact turns _

theorem classEscape_shortens (scan : ClassScan) (more : s.more = true) :
    (s.classEscape scan).Shortens (turnsLeft s scan) := by
  have escaped := s.escape_weak
  have strict := s.escape_strict
  rw [classEscape]
  split
  · rename_i result
    rw [result] at escaped strict
    exact classSimple_shortens _ _ _ (remaining_lt escaped (strict (by simp)) more)
  · rename_i t result
    rw [result] at escaped strict
    have fewer : t.remaining < s.remaining := remaining_lt escaped (strict (by simp)) more
    split
    · exact trivial
    · rename_i noRange
      dsimp only
      split
      · exact trivial
      · rw [ClassTurn.Shortens, turnsLeft, turnsLeft, if_neg noRange]
        omega
  · exact trivial

theorem classMinus_shortens (scan : ClassScan) (more : s.more = true) :
    (s.classMinus scan).Shortens (turnsLeft s scan) := by
  have next : (s.skip 1).remaining < s.remaining :=
    remaining_lt (.skip s 1) (lt_succ_self _) more
  rw [classMinus]
  split
  · exact classSimple_shortens _ _ _ next
  · rename_i noRange
    have noRange : ¬scan.definingRange = true := by
      simp only [Bool.or_eq_true, not_or] at noRange
      exact noRange.1
    dsimp only
    split
    · split
      · exact classSimple_shortens _ _ _ next
      · rw [ClassTurn.Shortens, turnsLeft, turnsLeft, if_neg noRange]
        simp only [if_true]
        omega
    · rw [ClassTurn.Shortens, turnsLeft, turnsLeft, if_neg noRange]
      simp only [if_true]
      omega

theorem classTurn_shortens {scan : ClassScan}
    (more : s.more = true) (goesOn : ¬Regex.caretStays s scan = true) :
    (s.classTurn scan).Shortens (turnsLeft s scan) := by
  have next : (s.skip 1).remaining < s.remaining :=
    remaining_lt (.skip s 1) (lt_succ_self _) more
  rw [classTurn]
  split
  · split
    · exact classSimple_shortens _ _ _ next
    · exact trivial
  · split
    · rename_i caret
      split
      · rw [ClassTurn.Shortens, turnsLeft, turnsLeft]
        dsimp only
        omega
      · rename_i inside
        simp only [Regex.caretStays, caret, inside, decide_true,
          Bool.true_and, ne_eq, not_false_eq_true, Bool.not_eq_true',
          Bool.not_eq_false, Bool.and_eq_true, decide_eq_true_eq] at goesOn
        rw [classSimple, if_pos goesOn.1, if_pos (caret ▸ goesOn.2)]
        exact trivial
    · split
      · exact classEscape_shortens scan more
      · split
        · exact classMinus_shortens scan more
        · exact classSimple_shortens _ _ _ next

end PatternInput

namespace Reading

variable {α β : Type}

def Defined (r : Reading α) (s : PatternInput) : Prop := ∃ o, r s = some o

theorem Defined.bind {first : Reading α} {rest : α → Reading β} {s : PatternInput}
    (one : Defined first s) (other : ∀ a t, first s = some (.ok (a, t)) → Defined (rest a) t) :
    Defined (first >>= rest) s := by
  rcases one with ⟨outcome, here⟩
  change ∃ o, Reading.bind first rest s = some o
  rw [Reading.bind, here]
  cases outcome with
  | error stop => exact ⟨_, rfl⟩
  | ok result => exact other result.1 result.2 here

theorem Defined.pure (a : α) (s : PatternInput) : Defined (pure a) s := ⟨_, rfl⟩

theorem Defined.stop (why : Stop) (s : PatternInput) : Defined (stop why : Reading α) s := ⟨_, rfl⟩

theorem Defined.scan (f : PatternInput → Option α × PatternInput)
    (s : PatternInput) : Defined (Reading.scan f) s := by
  rw [Defined, Reading.scan]
  split
  · exact ⟨_, rfl⟩
  · exact ⟨_, rfl⟩

theorem Defined.ite {c : Prop} [Decidable c] {one other : Reading α}
    {s : PatternInput} (yes : c → Defined one s)
    (no : ¬c → Defined other s) : Defined (if c then one else other) s := by
  split
  · exact yes ‹_›
  · exact no ‹_›

end Reading

namespace Regex

variable {fuel : Nat} {s : PatternInput}

theorem readItems_defined {items : ClassScan}
    (enough : turnsLeft s items < fuel) : Defined (readItems fuel items) s := by
  induction fuel generalizing s items with
  | zero => exact absurd enough (not_lt_zero _)
  | succ fuel ih =>
    rw [Defined, readItems]
    dsimp only
    cases more : s.more with
    | false => exact ⟨_, rfl⟩
    | true =>
      rw [Bool.not_true, if_neg Bool.false_ne_true]
      split
      · exact ⟨_, rfl⟩
      · rename_i goesOn
        have turn := classTurn_shortens more goesOn
        split
        · rename_i after
          rw [after] at turn
          exact ih (lt_of_lt_of_le turn (le_of_lt_succ enough))
        · exact Defined.scan _ _
        · exact ⟨_, rfl⟩

/-- The bound that is enough for what is left of the pattern. -/
def Enough (fuel : Nat) (s : PatternInput) : Prop := 2 * s.remaining + 2 ≤ fuel

theorem Enough.before {t : PatternInput}
    (enough : Enough fuel s) (before : Before s t) : Enough fuel t := by
  have fewer := before.remaining
  rw [Enough] at enough ⊢
  omega

theorem readAtom_defined (s : PatternInput) : Defined readAtom s :=
  (Defined.scan _ _).bind fun _ _ _ => .pure _ _

theorem readEscape_defined (s : PatternInput) : Defined readEscape s := by
  rw [Defined, readEscape, look_bind, advance_bind, look_bind]
  cases s.escape.1 with
  | charClass => exact ⟨_, rfl⟩
  | complex => exact ⟨_, rfl⟩
  | backref =>
    dsimp only
    rw [look_bind]
    exact Defined.ite (fun _ => ⟨_, rfl⟩) fun _ => ⟨_, rfl⟩
  | error => exact ⟨_, rfl⟩
  | char value => exact readAtom_defined _

theorem readClass_defined (enough : Enough fuel s) (more : s.more = true) :
    Defined (readClass fuel) s := by
  have next : (s.skip 1).remaining < s.remaining :=
    remaining_lt (.skip s 1) (lt_succ_self _) more
  rw [Defined, readClass, step_bind, look_bind]
  refine Defined.ite (fun _ => ⟨_, rfl⟩) fun _ => ?_
  rw [Defined, look_bind]
  refine Defined.ite (fun _ => ?_) fun _ => ?_
  · exact (Defined.scan _ _).bind fun _ _ _ => .pure _ _
  · rw [Defined, look_bind]
    refine (readItems_defined ?_).bind fun _ _ _ => .pure _ _
    rw [turnsLeft, classStart, if_neg Bool.false_ne_true]
    rw [Enough] at enough
    omega

theorem readSimple_defined (enough : Enough fuel s) : Defined (readSimple fuel) s := by
  rw [Defined, readSimple, look_bind]
  refine Defined.ite (fun _ => ⟨_, rfl⟩) fun _ => ?_
  refine Defined.ite (fun _ => ⟨_, rfl⟩) fun _ => ?_
  refine Defined.ite (fun _ => ⟨_, rfl⟩) fun _ => ?_
  refine Defined.ite (fun bracket => ?_) fun _ => ?_
  · exact readClass_defined enough (more_of_cur (by rw [bracket]; decide))
  refine Defined.ite (fun _ => ⟨_, rfl⟩) fun _ => ?_
  exact Defined.ite (fun _ => readEscape_defined s) fun _ => readAtom_defined s

theorem readClosure_defined (operand : Regex) (s : PatternInput) :
    Defined (readClosure operand) s := by
  rw [Defined, readClosure, look_bind]
  refine Defined.ite (fun _ => ⟨_, rfl⟩) fun _ => ?_
  rw [Defined, look_bind]
  refine Defined.ite (fun _ => ?_) fun _ => Defined.ite (fun _ => ?_) fun _ => ⟨_, rfl⟩
  · rw [Defined, step_bind]
    refine Defined.ite (fun _ => ⟨_, rfl⟩) fun _ => ?_
    rw [Defined, look_bind]
    exact Defined.ite (fun _ => ⟨_, rfl⟩) fun _ => ⟨_, rfl⟩
  · refine Defined.ite (fun _ => ⟨_, rfl⟩) fun _ => ?_
    refine (Defined.scan _ _).bind fun _ _ _ => ?_
    exact Defined.ite (fun _ => ⟨_, rfl⟩) fun _ => ⟨_, rfl⟩

section

variable {inner : Reading Regex} (takes : Takes inner) {fuel : Nat}
  (defined : ∀ s, Enough fuel s → s.more = true → Defined inner s)

include defined

variable {s : PatternInput}

theorem readPiece_defined (enough : Enough fuel s) : Defined (readPiece inner fuel) s := by
  rw [Defined, readPiece, look_bind]
  refine Defined.bind ?_ fun _ _ _ => readClosure_defined _ _
  refine Defined.ite (fun paren => ?_) fun _ => readSimple_defined enough
  exact defined s enough (more_of_cur (by rw [paren]; decide))

include takes

omit defined in
theorem readPiece_remaining {s t : PatternInput} {piece : Regex}
    (more : Compile.branchGoesOn s = true)
    (reads : readPiece inner fuel s = some (.ok (piece, t))) :
    Before s t ∧ t.remaining < s.remaining := by
  rcases readPiece_takes takes fuel s piece t reads with ⟨before, strict⟩
  simp only [Compile.branchGoesOn, Bool.and_eq_true] at more
  exact ⟨before, remaining_lt before strict more.1.1⟩

theorem readPieces_defined {turns : Nat} (last : Regex)
    (enough : Enough fuel s) (turnsEnough : s.remaining < turns) :
    Defined (readPieces inner fuel turns last) s := by
  induction turns generalizing s last with
  | zero => exact absurd turnsEnough (not_lt_zero _)
  | succ turns ih =>
    rw [Defined, readPieces, look_bind]
    refine Defined.ite (fun more => ?_) fun _ => ⟨_, rfl⟩
    refine (readPiece_defined defined enough).bind fun piece t reads => ?_
    rcases readPiece_remaining takes more reads with ⟨before, fewer⟩
    have enough' := enough.before before
    refine Defined.ite (fun _ => ?_) fun _ => ?_
    · rw [Defined, look_bind]
      refine Defined.ite (fun _ => ?_) fun _ => ⟨_, rfl⟩
      exact (readPiece_defined defined enough').bind fun _ _ _ => .stop _ _
    · refine (ih piece enough' ?_).bind fun _ _ _ => .pure _ _
      omega

theorem readBranch_defined (enough : Enough fuel s) : Defined (readBranch inner fuel) s := by
  rw [Defined, readBranch, look_bind]
  refine Defined.ite (fun more => ?_) fun _ => ⟨_, rfl⟩
  refine (readPiece_defined defined enough).bind fun piece t reads => ?_
  rcases readPiece_remaining takes more reads with ⟨before, fewer⟩
  refine readPieces_defined takes defined piece (enough.before before) ?_
  rw [Enough] at enough
  omega

theorem readBranches_defined {turns : Nat}
    (first : Option Regex) (enough : Enough fuel s) (turnsEnough : s.remaining < turns) :
    Defined (readBranches inner fuel turns first) s := by
  induction turns generalizing s first with
  | zero => exact absurd turnsEnough (not_lt_zero _)
  | succ turns ih =>
    rw [Defined, readBranches, look_bind]
    refine Defined.ite (fun another => ?_) fun _ => ⟨_, rfl⟩
    rw [Defined, step_bind]
    simp only [Compile.anotherBranch, Bool.and_eq_true] at another
    have next : (s.skip 1).remaining < s.remaining :=
      remaining_lt (.skip s 1) (lt_succ_self _) another.1
    have enough' := enough.before (.skip s 1)
    refine (readBranch_defined takes defined enough').bind fun second t reads => ?_
    have before := readBranch_keeps takes fuel _ second t reads
    have fewer := before.remaining
    refine (ih second (enough'.before before) ?_).bind fun _ _ _ => .pure _ _
    omega

theorem readBody_defined {α : Type} (enough : Enough fuel s) {rest : Option Branches → Reading α}
    (restDefined : ∀ body t, Defined (rest body) t) :
    Defined (readBranch inner fuel >>= fun first =>
      readBranches inner fuel fuel first >>= rest) s := by
  refine (readBranch_defined takes defined enough).bind fun first t reads => ?_
  have enough' := enough.before (readBranch_keeps takes fuel s first t reads)
  refine (readBranches_defined takes defined first enough' ?_).bind fun _ _ _ => restDefined _ _
  rw [Enough] at enough'
  omega

end

theorem readGroup_defined : ∀ s, Enough fuel s → s.more = true → Defined (readGroup fuel) s := by
  induction fuel with
  | zero =>
    intro s enough
    rw [Enough] at enough
    omega
  | succ fuel defined =>
    intro s enough more
    have next : (s.skip 1).remaining < s.remaining :=
      remaining_lt (.skip s 1) (lt_succ_self _) more
    have enough' : Enough fuel { s.skip 1 with fNofParentheses := s.fNofParentheses + 1 } := by
      rw [Enough] at enough ⊢
      rw [remaining] at next ⊢
      dsimp only
      omega
    rw [Defined, readGroup, look_bind, step_bind]
    refine readBody_defined (readGroup_takes fuel) defined enough' fun body t => ?_
    rw [Defined, look_bind]
    refine Defined.ite (fun _ => ?_) fun _ => ⟨_, rfl⟩
    rw [Defined, step_bind]
    cases body with
    | none => exact ⟨_, rfl⟩
    | some body => exact ⟨_, rfl⟩

theorem readExpr_defined (enough : Enough fuel s) : Defined (readExpr fuel) s := by
  have enough' : Enough fuel { s with fNofParentheses := 1 } := enough
  rw [Defined, readExpr, step_bind]
  refine readBody_defined (readGroup_takes fuel) readGroup_defined enough' fun body t => ?_
  cases body with
  | none => exact ⟨_, rfl⟩
  | some body => exact ⟨_, rfl⟩

/-- Every pattern is read, or reading it is known to fail. -/
theorem readsAs_total (pat : Bytes) : ∃ outcome, ReadsAs pat outcome := by
  have body := readExpr_defined (le_refl (2 * (RECompiler.start pat).input.remaining + 2))
  have whole : Defined (readPattern _) (RECompiler.start pat).input :=
    body.bind fun _ _ _ => Defined.ite (fun _ => ⟨_, rfl⟩) fun _ => ⟨_, rfl⟩
  rcases whole with ⟨result, reads⟩
  exact ⟨_, _, result, reads, rfl⟩

end Regex

end Coast
