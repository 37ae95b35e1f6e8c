import Coast.Regex.CompilePieces

/-!
# Branches

The pieces of a branch are linked while they are read.  A reluctant closure in
front of a piece of several nodes is linked to a circle.
-/

namespace Coast.Compile

open Fuel Regex Program List Nat

/-- Wherever the nodes stand, the chain from an index does not end. -/
def Knotted (body : Program) (i : Nat) : Prop :=
  ∀ pre post : Program, ∃ first second,
    Leads (chainNext (pre ++ body ++ post)) (pre.length + i) first ∧
      chainNext (pre ++ body ++ post) first = some second ∧
      Leads (chainNext (pre ++ body ++ post)) second first

def BodyOf (r : Option Regex) (body : Program) : Prop :=
  match r with
  | some r => body = r.code 0
  | none => Knotted body 0

variable {body : Program} {i : Nat}

theorem Knotted.of_within {j : Nat}
    (knotted : Knotted body j) (within : Within body i j) :
    Knotted body i := by
  intro pre post
  rcases knotted pre post with ⟨first, second, leads, goesOn, back⟩
  exact ⟨first, second, (within pre post).trans leads, goesOn, back⟩

theorem Knotted.behind (knotted : Knotted body i)
    (front : Program) : Knotted (front ++ body) (front.length + i) := by
  intro pre post
  have there := knotted (pre ++ front) post
  rw [length_append, add_assoc] at there
  simpa only [append_assoc] using there

theorem Knotted.never (knotted : Knotted body 0)
    (pre post : Program) (pointTo : Nat) :
    Never (fun fuel => Program.setNextOfEnd fuel (pre ++ body ++ post) pre.length pointTo) := by
  rcases knotted pre post with ⟨first, second, leads, goesOn, back⟩
  exact Program.setNextOfEnd_never pointTo leads goesOn back

theorem setNextOfEnd_never {program : Program} {pointTo : Nat} (s : PatternInput)
    (never : Never (fun fuel => Program.setNextOfEnd fuel program i pointTo)) :
    Never (fun fuel => setNextOfEnd fuel i pointTo ⟨s, program⟩) := by
  intro fuel
  simp only [setNextOfEnd, generate, never fuel]
  rfl

theorem code_of_size_one {r : Regex} (one : r.size = 1) :
    ∃ opcode opdata, ∀ next, r.code next = [instr opcode opdata next] := by
  match r, one with
  | .terminal t, _ => exact ⟨t.opcode, t.opdata, fun _ => rfl⟩
  | .nothing, _ => exact ⟨.opNothing, .number 0, fun _ => rfl⟩
  | .group _ body, one =>
    simp only [Regex.size] at one
    omega
  | .closure operator isGreedy operand, one =>
    have pos := operand.size_pos
    cases isGreedy <;> cases operator <;> simp [Regex.size, ClosureOperator.overhead] at one
  | .cat first rest, one =>
    have firstPos := first.size_pos
    have restPos := rest.size_pos
    simp only [Regex.size] at one
    omega

section

variable {last piece : Regex} (front : Program)

/-- A piece is linked to the one before it, unless that is a reluctant closure
and the piece has several nodes. -/
theorem linkPieces_settles (fine : ¬(last.endsReluctant = true ∧ piece.size ≠ 1)) :
    Settles (fun fuel => Program.setNextOfEnd fuel
        (front ++ last.code 0 ++ piece.code 0) front.length
        (front ++ last.code 0).length)
      (front ++ last.code 1 ++ piece.code 0) := by
  cases reluctant : last.endsReluctant with
  | false =>
    refine link reluctant front (piece.code 0) 1 rfl rfl ?_ rfl
    simp
  | true =>
    have one : piece.size = 1 := by
      by_contra several
      exact fine ⟨reluctant, several⟩
    rcases code_of_size_one one with ⟨opcode, opdata, code⟩
    have leads := last.code_within 0 front (piece.code 0)
    rw [lastIndex, if_pos reluctant, add_zero] at leads
    refine link_from (front ++ last.code 0) [] opcode opdata 0 ?_ ?_ ?_ ?_
    · rw [code]
    · simpa using leads
    · simp
    · rw [code, code_reluctant reluctant 1]

theorem knotPieces_settles (reluctant : last.endsReluctant = true) (several : piece.size ≠ 1) :
    ∃ tail, Settles (fun fuel => Program.setNextOfEnd fuel
        (front ++ last.code 0 ++ piece.code 0) front.length
        (front ++ last.code 0).length)
      (front ++ last.code 0 ++ tail) ∧ Knotted tail 0 := by
  have pos := piece.size_pos
  have toPiece := last.code_within 0 front (piece.code 0)
  rw [lastIndex, if_pos reluctant, add_zero] at toPiece
  cases pieceReluctant : piece.endsReluctant with
  | false =>
    obtain ⟨inside, opcode, opdata, code⟩ := code_snoc pieceReluctant
    have size : piece.size = inside.length + 1 := by
      rw [← Regex.length_code piece 0, code, length_append, length_singleton]
    have lastIndexEq : piece.lastIndex = inside.length := by
      rw [lastIndex, pieceReluctant, if_neg Bool.false_ne_true, size, Nat.add_sub_cancel]
    refine ⟨piece.code (-inside.length), ?_, ?_⟩
    · have throughPiece := piece.code_within 0 (front ++ last.code 0) []
      rw [append_nil, lastIndexEq, add_zero, length_append, Regex.length_code] at throughPiece
      refine link_from (front ++ last.code 0 ++ inside) [] opcode opdata
        (-inside.length) ?_ ?_ ?_ ?_
      · rw [code, ← append_assoc]
      · simpa [add_assoc] using toPiece.trans throughPiece
      · simp
        omega
      · rw [code, ← append_assoc]
    · intro pre post
      have leads := piece.code_within (-inside.length) pre post
      rw [lastIndexEq] at leads
      refine ⟨pre.length + inside.length, pre.length, leads, ?_, leads⟩
      have goesOn := chainNext_node (pre ++ inside) post
        (n := instr opcode opdata (-inside.length)) (j := pre.length) rfl
        (by omega) (by simp)
      simpa [code] using goesOn
  | true =>
    let garbage : Node := ⟨none, .null, some (-piece.size)⟩
    refine ⟨piece.code 0 ++ [garbage], ?_, ?_⟩
    · have throughPiece := piece.code_within 0 (front ++ last.code 0) []
      rw [append_nil, lastIndex, if_pos pieceReluctant, add_zero] at throughPiece
      let program := front ++ last.code 0 ++ piece.code 0
      have length : program.length = (front ++ last.code 0).length + piece.size := by
        rw [length_append, Regex.length_code]
      have leads : Leads program.chainNext front.length program.length := by
        rw [length]
        refine toPiece.trans ?_
        rw [length_append, Regex.length_code] at throughPiece ⊢
        exact throughPiece
      have settles := Program.setNextOfEnd_settles (front ++ last.code 0).length
        leads (next_length program)
      have offset : ((front ++ last.code 0).length - program.length : Int) = -piece.size := by omega
      rw [offset, setNext_length] at settles
      simpa [program, garbage] using settles
    · intro pre post
      have leads := piece.code_within 0 pre (garbage :: post)
      rw [lastIndex, if_pos pieceReluctant] at leads
      have goesOn := chainNext_node (pre ++ piece.code 0) post
        (n := garbage) (j := pre.length) rfl (by omega) (by simp)
      refine ⟨pre.length + piece.size, pre.length, ?_, ?_, ?_⟩
      · simpa using leads
      · simpa using goesOn
      · simpa using leads

end

/-- What is said of the compilation of an expression in parentheses. -/
def EndsInner (inner : Reading Regex) : Prop :=
  ∀ s program outcome, 1 ≤ s.fNofParentheses → s.cur = ch '(' → inner s = some outcome →
    Ends (fun fuel => expr fuel false ⟨s, program⟩) outcome (CompiledTerminal program)

section

variable {inner : Reading Regex} (endsInner : EndsInner inner)
  (takes : Reading.Takes inner) {fuel : Nat}

include endsInner

variable {s : PatternInput}

theorem terminal_ends (program : Program)
    {outcome : Except Stop (Regex × PatternInput)}
    (parentheses : 1 ≤ s.fNofParentheses)
    (reads : (if s.cur = ch '(' then inner else readSimple fuel) s = some outcome) :
    Ends (fun fuel => terminal fuel ⟨s, program⟩) outcome (CompiledTerminal program) := by
  by_cases opening : s.cur = ch '('
  · rw [if_pos opening] at reads
    refine (endsInner s program outcome parentheses opening reads).succ rfl fun fuel => ?_
    simp only [terminal, look_bind, if_pos opening]
  · rw [if_neg opening] at reads
    refine (readSimple_ends program reads).succ rfl fun fuel => ?_
    simp only [terminal, look_bind, if_neg opening]

theorem readPiece_ends (program : Program)
    {outcome : Except Stop (Regex × PatternInput)}
    (parentheses : 1 ≤ s.fNofParentheses) (reads : readPiece inner fuel s = some outcome) :
    Ends (fun fuel => closure fuel ⟨s, program⟩) outcome (Compiled program) := by
  rw [readPiece, Reading.look_bind] at reads
  refine (Ends.bind reads (fun o first => terminal_ends endsInner program parentheses first)
    ?_).succ rfl fun fuel => rfl
  rintro operand t value after _ ⟨⟨rfl, rfl⟩, terminal⟩ rest
  exact closureOf_ends terminal program rest

def CompiledPieces (pre front : Program) (isnullable : Bool)
    (r : Option Regex) (value : Option Nat × Bool) (after : Program) : Prop :=
  value.1.isSome ∧
    match r with
    | some r => after = pre ++ front ++ r.code 0 ∧ value.2 = (isnullable && r.nullable)
    | none => ∃ body, after = pre ++ body ∧ Knotted body 0

include takes

omit endsInner takes in
theorem pieces_succ {s : PatternInput} (more : branchGoesOn s = true)
    (program : Program) (chain : Option Nat) (isnullable : Bool) (fuel : Nat) :
    pieces (fuel + 1) chain isnullable ⟨s, program⟩ =
      (closure fuel >>= fun value => linkPiece fuel chain value.1 >>= fun _ =>
        pieces fuel (some value.1) (isnullable && value.2)) ⟨s, program⟩ := by
  simp only [pieces, look_bind, if_pos more]

omit endsInner takes in
theorem pieces_last {s : PatternInput} (last : ¬branchGoesOn s = true)
    (program : Program) (chain : Option Nat) (isnullable : Bool) :
    Settles (fun fuel => pieces fuel chain isnullable ⟨s, program⟩)
      (some (chain, isnullable), ⟨s, program⟩) := by
  refine (Settles.const _).succ rfl fun fuel => ?_
  simp only [pieces, look_bind, if_neg last]
  rfl

/-- The pieces are compiled as they are read. -/
theorem readPieces_ends {turns : Nat} {last : Regex} (pre : Program)
    {front : Program} (through : Within front 0 front.length) (isnullable : Bool)
    {outcome : Except Stop (Option Regex × PatternInput)} (parentheses : 1 ≤ s.fNofParentheses)
    (reads : readPieces inner fuel turns last s = some outcome) :
    Ends (fun fuel => pieces fuel (some (pre ++ front).length)
        (isnullable && last.nullable) ⟨s, pre ++ front ++ last.code 0⟩)
      outcome (CompiledPieces pre front isnullable) := by
  induction turns generalizing last s front isnullable outcome with
  | zero => cases reads
  | succ turns ih =>
    rw [readPieces, Reading.look_bind] at reads
    by_cases more : branchGoesOn s = true
    · rw [if_pos more] at reads
      refine (Ends.bind reads (fun o first => readPiece_ends endsInner _
        parentheses first) ?_).succ rfl (pieces_succ more _ _ _)
      rintro piece t value _ first ⟨rfl, rfl⟩ rest
      have after := readPiece_takes takes fuel s piece t first
      have parentheses' := le_trans parentheses after.1.parentheses
      dsimp only at rest ⊢
      split at rest
      · rename_i knot
        simp only [Bool.and_eq_true, decide_eq_true_eq] at knot
        rcases knotPieces_settles (pre ++ front) knot.1 knot.2 with ⟨tail, settles, knotted⟩
        refine Ends.after (setNextOfEnd_settles t settles) ?_
        rw [Reading.look_bind] at rest
        split at rest
        · rename_i again
          refine Ends.succ (Ends.bind rest (fun o second =>
            readPiece_ends endsInner _ parentheses' second) ?_) rfl
            (pieces_succ again _ _ _)
          rintro _ u value after _ ⟨rfl, rfl⟩ stops
          cases stops
          exact never_bind _ (setNextOfEnd_never u (knotted.never _ _ _))
        · rename_i ended
          cases rest
          have inside := (last.code_within 0).right front
          rw [lastIndex, if_pos knot.1] at inside
          have toTail := ((through.left _).trans inside).left tail
          have behind := knotted.behind (front ++ last.code 0)
          rw [length_append, Regex.length_code, add_zero] at behind
          refine Ends.ok ⟨rfl, front ++ last.code 0 ++ tail, by simp, ?_⟩ (pieces_last ended _ _ _)
          exact behind.of_within toTail
      · rename_i fine
        simp only [Bool.and_eq_true, decide_eq_true_eq] at fine
        have settles := linkPieces_settles (pre ++ front) fine
        refine Ends.after (setNextOfEnd_settles t settles) ?_
        have linked := (through.left (last.code 1)).trans
          (by simpa using last.code_through.right front)
        have through' : Within (front ++ last.code 1) 0 (front ++ last.code 1).length := by
          simpa using linked
        have ends := fun o => @ih t piece
          (front ++ last.code 1) through' (isnullable && last.nullable) o
          parentheses'
        have length : (pre ++ (front ++ last.code 1)).length =
            (pre ++ front ++ last.code 0).length := by simp
        rw [length, ← append_assoc] at ends
        refine Ends.map rest ends ?_
        rintro (_ | tree) value program ⟨some_, compiled⟩
        · exact ⟨some_, compiled⟩
        · refine ⟨some_, ?_, ?_⟩
          · rw [compiled.1, Regex.code_cat]
            simp
          · rw [compiled.2, Regex.nullable, Bool.and_assoc]
    · rw [if_neg more] at reads
      cases reads
      exact Ends.ok ⟨rfl, rfl, rfl⟩ (pieces_last more _ _ _)

def opening : Node := instr .opBranch (.number 0) 0

/-- What a branch gives: its first node, whether it is nullable, and the
program with its nodes. -/
def CompiledBranch (pre : Program) (r : Option Regex) (value : Nat × Bool)
    (after : Program) : Prop :=
  value.1 = pre.length ∧ (∀ tree, r = some tree → value.2 = tree.nullable) ∧
    ∃ body, after = pre ++ opening :: body ∧ BodyOf r body

def finishBranch (ret : Nat) (chain : Option Nat) (isnullable : Bool) : Compile (Nat × Bool) := do
  if chain.isNone then
    let _ ← appendNode .opNothing (.number 0)
  pure (ret, isnullable)

omit endsInner takes in
theorem branch_succ (s : PatternInput) (pre : Program) (fuel : Nat) :
    branch (fuel + 1) ⟨s, pre⟩ = (pieces fuel none true >>= fun value =>
      finishBranch pre.length value.1 value.2) ⟨s, pre ++ [opening]⟩ := rfl

theorem readBranch_ends (pre : Program)
    {outcome : Except Stop (Option Regex × PatternInput)}
    (parentheses : 1 ≤ s.fNofParentheses) (reads : readBranch inner fuel s = some outcome) :
    Ends (fun fuel => branch fuel ⟨s, pre⟩) outcome (CompiledBranch pre) := by
  rw [readBranch, Reading.look_bind] at reads
  split at reads
  · rename_i more
    have ends : Ends (fun fuel => pieces fuel none true ⟨s, pre ++ [opening]⟩)
        outcome (CompiledPieces (pre ++ [opening]) [] true) := by
      refine (Ends.bind reads (fun o first => readPiece_ends endsInner _
        parentheses first) ?_).succ rfl (pieces_succ more _ _ _)
      rintro piece t value _ first ⟨rfl, rfl⟩ rest
      have before := (readPiece_takes takes fuel s piece t first).1
      have later := readPieces_ends endsInner takes (pre ++ [opening])
        (.refl [] 0) true (le_trans parentheses before.parentheses) rest
      refine Ends.after (.const _) ?_
      simpa using later
    refine Ends.succ (Ends.andThen ends ?_) rfl (branch_succ s pre)
    rintro r t ⟨chain, isnullable⟩ after ⟨some_, compiled⟩
    obtain ⟨last, rfl⟩ := Option.isSome_iff_exists.mp some_
    refine Ends.ok (a := (pre.length, isnullable)) ⟨rfl, ?_, ?_⟩ (.const _)
    · rintro tree rfl
      exact compiled.2
    · cases r with
      | none =>
        rcases compiled with ⟨body, rfl, knotted⟩
        exact ⟨body, by simp, knotted⟩
      | some tree => exact ⟨tree.code 0, by simp [compiled.1], rfl⟩
  · rename_i ended
    cases reads
    refine Ends.succ (Ends.after (pieces_last ended _ _ _) ?_) rfl (branch_succ s pre)
    refine Ends.ok ⟨rfl, ?_, Regex.code .nothing 0, ?_, rfl⟩ (.const _)
    · rintro _ ⟨rfl⟩
      rfl
    · simp [Program.appendNode, Regex.code]
      rfl

end

end Coast.Compile
