import Coast.Regex.Generators

/-!
# The pieces of a branch

A terminal and its closure are compiled to the fragment of their tree.
-/

namespace Coast.Compile

open Fuel Regex List

/-- What the compilation of a tree gives: the first node, whether the tree is
nullable, and the program with the fragment. -/
def Compiled (program : Program) (r : Regex) (value : Nat × Bool) (after : Program) : Prop :=
  value = (program.length, r.nullable) ∧ after = program ++ r.code 0

def CompiledTerminal (program : Program) (r : Regex) (value : Nat × Bool)
    (after : Program) : Prop :=
  Compiled program r value after ∧ r.endsReluctant = false

variable {s : PatternInput} {items : PatternInput.ClassScan}

theorem classSimple_again {c : Byte} (fine : ¬(items.definingRange = true ∧ c ≤ items.rangeStart)) :
    ∃ next, s.classSimple items c = .again s next ∧
      next.idxFirst = items.idxFirst ∧ next.definingRange = false := by
  rw [PatternInput.classSimple]
  cases defining : items.definingRange with
  | true =>
    rw [if_pos rfl, if_neg (fun bad => fine ⟨defining, bad⟩)]
    exact ⟨_, rfl, rfl, rfl⟩
  | false =>
    rw [if_neg Bool.false_ne_true]
    exact ⟨_, rfl, rfl, rfl⟩

theorem caretStays_again (stays : caretStays s items = true) :
    ∃ next, s.classTurn items = .again s next ∧ caretStays s next = true := by
  simp only [caretStays, Bool.and_eq_true, decide_eq_true_eq, ne_eq,
    Bool.not_eq_true', Bool.and_eq_false_iff, decide_eq_false_iff_not]
    at stays
  rcases stays with ⟨⟨caret, inside⟩, range⟩
  have fine : ¬(items.definingRange = true ∧ ch '^' ≤ items.rangeStart) := by
    rintro ⟨defining, bad⟩
    rcases range with closed | wide
    · cases defining.symm.trans closed
    · exact wide bad
  rcases classSimple_again (s := s) fine with ⟨next, again, first, closed⟩
  refine ⟨next, ?_, ?_⟩
  · rw [PatternInput.classTurn, caret, if_neg (by decide), if_pos rfl, if_neg inside, again]
  · simp [caretStays, caret, first, inside, closed]

theorem classLoop_never (more : s.more = true) (stays : caretStays s items = true) :
    Never (fun fuel => s.classLoop fuel items) := by
  intro fuel
  induction fuel generalizing items with
  | zero => rfl
  | succ fuel ih =>
    rcases caretStays_again stays with ⟨next, turn, again⟩
    show s.classLoop (fuel + 1) items = none
    rw [PatternInput.classLoop, more, turn]
    exact ih again

theorem classLoop_ends {fuel : Nat} (program : Program)
    {outcome : Except Stop (REBitSet × PatternInput)}
    (reads : readItems fuel items s = some outcome) :
    Ends (fun fuel =>
        scanLoop (fun s => s.classLoop fuel items) ⟨s, program⟩) outcome
      (fun set value after => value = set ∧ after = program) := by
  induction fuel generalizing s items with
  | zero => cases reads
  | succ fuel ih =>
    rw [readItems] at reads
    dsimp only at reads
    cases more : s.more with
    | false =>
      rw [more] at reads
      cases reads
      have result (fuel : Nat) :
          scanLoop (fun s => s.classLoop (fuel + 1) items) ⟨s, program⟩ =
            some (none, ⟨s.syntaxError (lit "Unterminated character class"), program⟩) := by
        simp only [scanLoop, PatternInput.classLoop, PatternInput.endClass, more]
        rfl
      exact ⟨_, (Settles.const _).succ rfl result⟩
    | true =>
      rw [more, Bool.not_true, if_neg Bool.false_ne_true] at reads
      by_cases stays : caretStays s items = true
      · rw [if_pos stays] at reads
        cases reads
        have never := classLoop_never more stays
        intro fuel
        simp only [scanLoop, never fuel]
        rfl
      · rw [if_neg stays] at reads
        split at reads
        · rename_i next scan turn
          refine (ih reads).succ rfl fun fuel => ?_
          simp only [scanLoop, PatternInput.classLoop, more, turn]
          rfl
        · rename_i next scan turn
          rcases ended : next.endClass scan with ⟨set, after⟩
          have result (fuel : Nat) :
              scanLoop (fun s => s.classLoop (fuel + 1) items)
                ⟨s, program⟩ = some (set, ⟨after, program⟩) := by
            simp only [scanLoop, PatternInput.classLoop, more, turn, ended]
            rfl
          rw [Reading.scan, ended] at reads
          cases set with
          | none =>
            cases reads
            exact ⟨_, (Settles.const _).succ rfl result⟩
          | some set =>
            cases reads
            exact ⟨set, program, ⟨rfl, rfl⟩, (Settles.const _).succ rfl result⟩
        · rename_i next turn
          cases reads
          have result (fuel : Nat) :
              scanLoop (fun s => s.classLoop (fuel + 1) items)
                ⟨s, program⟩ = some (none, ⟨next, program⟩) := by
            simp only [scanLoop, PatternInput.classLoop, more, turn]
            rfl
          exact ⟨_, (Settles.const _).succ rfl result⟩

theorem setOpdata_appendNode (program : Program) (t : Terminal) (before : OpData) :
    Program.setOpdata (program.appendNode t.opcode before).2 program.length
      t.opdata = program ++ Regex.code (.terminal t) 0 := by
  rw [Program.setOpdata, Program.appendNode, modify_eq_set_getElem?]
  simp [Program.fresh, code, instr]

/-- The compilation of a single node, which is not nullable. -/
def CompiledNode (program : Program) (r : Regex) (ret : Nat) (after : Program) : Prop :=
  ret = program.length ∧ after = program ++ r.code 0 ∧ r.nullable = false ∧ r.endsReluctant = false

variable {outcome : Except Stop (Regex × PatternInput)}

theorem atom_ends (program : Program) (reads : readAtom s = some outcome) :
    Ends (fun _ => atom ⟨s, program⟩) outcome (CompiledNode program) := by
  rcases scanned : s.atomText with ⟨text, after⟩
  cases text with
  | none =>
    rw [readAtom, Reading.scan_bind_none scanned] at reads
    cases reads
    have result := scan_bind_none (c := ⟨s, (program.appendNode .opAtom
      (.number 0)).2⟩) scanned fun strAtom => emit fun after =>
        (program.length, after.setOpdata program.length (.text strAtom))
    exact Ends.failed fun _ => result
  | some text =>
    rw [readAtom, Reading.scan_bind_some scanned] at reads
    cases reads
    have result := scan_bind_some (c := ⟨s, (program.appendNode .opAtom
      (.number 0)).2⟩) scanned fun strAtom => emit fun after =>
        (program.length, after.setOpdata program.length (.text strAtom))
    refine Ends.returned ⟨rfl, ?_, rfl, rfl⟩ fun _ => result
    exact setOpdata_appendNode program (.atom text) (.number 0)

theorem appendNode_ends (program : Program) (t : Terminal) :
    Ends (fun _ => (do
        let ret ← appendNode t.opcode t.opdata
        pure (ret, t.nullable) : Compile (Nat × Bool)) ⟨s, program⟩)
      (.ok (.terminal t, s)) (CompiledTerminal program) :=
  Ends.ok ⟨⟨rfl, rfl⟩, rfl⟩ (Settles.const _)

theorem CompiledNode.terminal {m : Nat → Compile Nat} {c : RECompiler}
    (ends : Ends (fun fuel => m fuel c) outcome
      (CompiledNode c.fInstruction)) :
    Ends (fun fuel => (do
        let ret ← m fuel
        pure (ret, false) : Compile (Nat × Bool)) c) outcome
      (CompiledTerminal c.fInstruction) := by
  match outcome, ends with
  | .ok (r, s), ⟨ret, after, ⟨first, code, nullable, last⟩, settles⟩ =>
    refine Ends.ok (a := (ret, false)) ⟨⟨?_, code⟩, last⟩ (settles_bind settles (.const _))
    rw [first, nullable]
  | .error .syntaxError, ⟨after, settles⟩ =>
    exact ⟨after, settles_bind_none _ settles⟩
  | .error .endlessClass, never => exact never_bind _ never
  | .error .endlessChain, never => exact never_bind _ never

section

variable (program : Program)
include program

theorem readAtom_terminal (reads : readAtom s = some outcome) :
    Ends (fun _ => (do
        let ret ← atom
        pure (ret, false) : Compile (Nat × Bool)) ⟨s, program⟩) outcome
      (CompiledTerminal program) :=
  CompiledNode.terminal (c := ⟨s, program⟩) (atom_ends program reads)

theorem readEscape_ends (reads : readEscape s = some outcome) :
    Ends (fun _ => escapeTerminal ⟨s, program⟩) outcome (CompiledTerminal program) := by
  rw [readEscape, Reading.look_bind, Reading.advance_bind, Reading.look_bind] at reads
  simp only [escapeTerminal, look_bind, advance_bind]
  cases result : s.escape.1 with
  | charClass =>
    rw [result] at reads
    cases reads
    exact appendNode_ends program (.anyOf _)
  | complex =>
    rw [result] at reads
    cases reads
    exact appendNode_ends program (.bow _)
  | backref =>
    rw [result] at reads
    simp only [Reading.look_bind] at reads
    simp only [look_bind]
    split at reads
    · rename_i open_
      cases reads
      simp only [if_pos open_]
      exact ⟨_, Settles.const _⟩
    · rename_i closed
      cases reads
      simp only [if_neg closed]
      exact appendNode_ends program (.backref _)
  | error =>
    rw [result] at reads
    cases reads
    exact ⟨_, Settles.const _⟩
  | char value =>
    rw [result] at reads
    exact readAtom_terminal program reads

theorem readClass_ends {fuel : Nat} (reads : readClass fuel s = some outcome) :
    Ends (fun fuel => characterClass fuel ⟨s, program⟩) outcome (CompiledNode program) := by
  simp only [readClass, Reading.step_bind, Reading.look_bind] at reads
  simp only [characterClass, step_bind, look_bind]
  split at reads
  · rename_i ended
    cases reads
    simp only [if_pos ended]
    exact ⟨_, Settles.const _⟩
  · rename_i more
    simp only [if_neg more]
    simp only [Reading.look_bind] at reads
    simp only [look_bind]
    split at reads
    · rename_i colon
      simp only [if_pos colon, step_bind, posixCharacterClass]
      rw [Reading.step_bind] at reads
      rcases scanned : ((s.skip 1).skip 1).posixCharacterClass with ⟨set, after⟩
      cases set with
      | none =>
        rw [Reading.scan_bind_none scanned] at reads
        cases reads
        have result := scan_bind_none (c := ⟨(s.skip 1).skip 1, program⟩)
          scanned fun set => appendNode .opAnyOf (.set set)
        exact Ends.failed fun _ => result
      | some set =>
        rw [Reading.scan_bind_some scanned] at reads
        cases reads
        have result := scan_bind_some (c := ⟨(s.skip 1).skip 1, program⟩)
          scanned fun set => appendNode .opAnyOf (.set set)
        exact Ends.returned ⟨rfl, rfl, rfl, rfl⟩ fun _ => result
    · rename_i noColon
      simp only [if_neg noColon, appendNode, emit_bind]
      rw [Reading.look_bind] at reads
      refine Ends.bind reads (fun o items => classLoop_ends _ items) ?_
      rintro set t value after _ ⟨rfl, rfl⟩ rest
      cases rest
      refine Ends.ok ⟨rfl, ?_, rfl, rfl⟩ (Settles.const _)
      exact setOpdata_appendNode program (.anyOf _) (.number 0)

theorem readSimple_ends {fuel : Nat} (reads : readSimple fuel s = some outcome) :
    Ends (fun fuel => simpleTerminal fuel ⟨s, program⟩) outcome (CompiledTerminal program) := by
  rw [readSimple, Reading.look_bind] at reads
  simp only [simpleTerminal, look_bind]
  split at reads
  · rename_i eol
    cases reads
    simp only [if_pos eol]
    exact appendNode_ends program .eol
  rename_i notEol
  simp only [if_neg notEol]
  split at reads
  · rename_i bol
    cases reads
    simp only [if_pos bol]
    exact appendNode_ends program .bol
  rename_i notBol
  simp only [if_neg notBol]
  split at reads
  · rename_i any
    cases reads
    simp only [if_pos any]
    exact appendNode_ends program .any
  rename_i notAny
  simp only [if_neg notAny]
  split at reads
  · rename_i bracket
    simp only [if_pos bracket]
    exact CompiledNode.terminal (c := ⟨s, program⟩) (readClass_ends program reads)
  rename_i notBracket
  simp only [if_neg notBracket]
  split at reads
  · rename_i bad
    cases reads
    by_cases close : s.cur = ch ')'
    · simp only [if_pos close]
      exact ⟨_, Settles.const _⟩
    by_cases bar : s.cur = ch '|'
    · simp only [if_neg close, if_pos bar]
      exact ⟨_, Settles.const _⟩
    by_cases nul : s.cur = 0
    · simp only [if_neg close, if_neg bar, if_pos nul]
      exact ⟨_, Settles.const _⟩
    simp only [close, bar, nul, decide_false, Bool.false_or] at bad
    simp only [if_neg close, if_neg bar, if_neg nul, if_pos bad]
    exact ⟨_, Settles.const _⟩
  · rename_i fine
    simp only [Bool.or_eq_true, decide_eq_true_eq, not_or] at fine
    rcases fine with ⟨⟨⟨⟨⟨⟨close, bar⟩, nul⟩, question⟩, plus⟩, brace⟩, star⟩
    simp only [close, bar, nul, question, plus, brace, star, if_false,
      decide_false, Bool.or_false, Bool.false_eq_true]
    split at reads
    · rename_i backslash
      simp only [if_pos backslash]
      exact readEscape_ends program reads
    · rename_i literal
      simp only [if_neg literal]
      exact readAtom_terminal program reads

theorem scan_settles {α : Type} {f : PatternInput → Option α × PatternInput} {after : PatternInput}
    {result : Option α} (scanned : f s = (result, after)) :
    Settles (fun _ => scan f ⟨s, program⟩) (result, ⟨after, program⟩) := by
  refine (Settles.const _).congr fun _ => ?_
  rw [scan, scanned]

end

theorem generate_settles {f : Nat → Program → Option Program} {program after : Program}
    (s : PatternInput) (settles : Settles (fun fuel => f fuel program) after) :
    Settles (fun fuel => generate (f fuel) ⟨s, program⟩)
      (some (), ⟨s, after⟩) :=
  settles.map fun after => ((some () : Option Unit), (⟨s, after⟩ : RECompiler))

theorem setNextOfEnd_settles {program after : Program} {i pointTo : Nat} (s : PatternInput)
    (settles : Settles (fun fuel =>
      Program.setNextOfEnd fuel program i pointTo) after) :
    Settles (fun fuel => setNextOfEnd fuel i pointTo ⟨s, program⟩)
      (some (), ⟨s, after⟩) :=
  generate_settles s (f := fun fuel program =>
    Program.setNextOfEnd fuel program i pointTo) settles

variable {operand : Regex}

theorem repeatTerminal_settles (terminal : operand.endsReluctant = false) (pre : Program)
    (s : PatternInput) (repetitions : Nat) :
    Settles (fun fuel => repeatTerminal fuel (operand.code 0) repetitions
        pre.length ⟨s, pre ++ operand.code 0⟩)
      (some (pre ++ operand.copiesCode repetitions).length,
        ⟨s, pre ++ operand.copiesCode repetitions ++ operand.code 0⟩) :=
  (Program.repeatTerminal_settles terminal pre repetitions).map _

section

variable {operand : Regex} (terminal : operand.endsReluctant = false) (pre : Program)

include terminal

theorem greedy_settles (s : PatternInput) (c : Byte) :
    Settles (fun fuel =>
        greedy fuel pre.length c ⟨s, pre ++ operand.code 0⟩)
      (some (), ⟨s, pre ++ Regex.code (.closure (operatorOf c) true operand) 0⟩) := by
  refine generate_settles s ?_
  rw [operatorOf]
  by_cases question : c = ch '?'
  · simp only [if_pos question]
    exact Program.generateQuestion_settles terminal pre
  · simp only [if_neg question]
    by_cases star : c = ch '*'
    · simp only [if_pos star]
      exact Program.generateStar_settles terminal pre
    · simp only [if_neg star]
      exact Program.generatePlus_settles terminal pre

theorem reluctant_settles (s : PatternInput) (c : Byte) :
    Settles (fun fuel =>
        reluctant fuel pre.length c ⟨s, pre ++ operand.code 0⟩)
      (some (), ⟨s, pre ++ Regex.code (.closure (operatorOf c) false operand) 0⟩) := by
  let last := instr .opEnd (.number 0) 0
  have opcode : (if c = ch '?' then Opcode.opReluctantMaybe
      else if c = ch '*' then Opcode.opReluctantStar
      else Opcode.opReluctantPlus) = (operatorOf c).reluctant := by
    rw [operatorOf]
    repeat' split
    all_goals rfl
  simp only [reluctant, appendNode, emit_bind, opcode]
  refine settles_bind (generate_settles s (Program.link terminal pre [last] 1 ?_ rfl ?_ rfl)) ?_
  · rfl
  · simp [Program.appendNode]
  · simp only [emit_bind, size_bind]
    rw [append_assoc, Program.insertNode_append]
    refine generate_settles s (Program.link_from pre
      (operand.code 1 ++ [last]) _ _ (operand.size + 2) rfl .refl ?_ ?_)
    · simp
      omega
    · simp [Regex.code, ClosureOperator.reluctantCode, last]

theorem counted_settles {s after : PatternInput} {minimum : Nat}
    {optional : PatternInput.Repetition} (scanned : s.bracket = (some (minimum, optional), after))
    (some_ : ¬(minimum = 0 ∧ optional = .optional 0)) :
    Settles (fun fuel => counted fuel pre.length operand.size ⟨s, pre ++ operand.code 0⟩)
      (some (pre.length, decide (minimum = 0)),
        ⟨after, pre ++ (operand.repeated minimum optional).code 0⟩) := by
  have copied : Program.copyProgram (pre ++ operand.code 0) pre.length
      operand.size = operand.code 0 := by
    rw [Program.copyProgram, drop_left]
    exact take_of_length_le (Nat.le_of_eq (operand.length_code 0))
  let front := pre ++ operand.copiesCode (minimum - 1)
  have copies : front ++ operand.copiesCode (min minimum 1) =
      pre ++ operand.copiesCode minimum := by
    have total : minimum - 1 + min minimum 1 = minimum := by omega
    rw [append_assoc, ← copiesCode_add, total]
  refine settles_bind (scan_settles _ scanned) ?_
  dsimp only
  simp only [emit_bind, copied]
  refine settles_bind (repeatTerminal_settles terminal pre after (minimum - 1)) ?_
  have again := repeatTerminal_settles terminal front after (min minimum 1)
  rw [copies] at again
  cases optional with
  | unbounded =>
    refine settles_bind again (settles_bind (generate_settles after
      (Program.generateStar_settles terminal _)) ?_)
    rw [repeated, code_copies, ← append_assoc]
    exact .const _
  | optional optional =>
    cases optional with
    | zero =>
      have least : minimum ≠ 0 := fun zero => some_ ⟨zero, rfl⟩
      simp only [if_neg least, pure_apply]
      rw [repeated, code_copies, ← append_assoc]
      exact .const _
    | succ optional =>
      refine settles_bind again (settles_bind (generate_settles after
        (Program.generateQuestions_settles terminal _ optional)) ?_)
      rw [repeated, code_copies operand, ← append_assoc]
      exact .const _

end

theorem nullable_repeated (advances : operand.nullable = false) {minimum : Nat}
    {optional : PatternInput.Repetition} (some_ : ¬(minimum = 0 ∧ optional = .optional 0)) :
    (operand.repeated minimum optional).nullable = decide (minimum = 0) := by
  match optional with
  | .unbounded =>
    rw [repeated, nullable_copies _ advances]
    exact Bool.and_true _
  | .optional 0 =>
    have least : minimum ≠ 0 := fun zero => some_ ⟨zero, rfl⟩
    rw [repeated, nullable_copies_self, advances, decide_eq_false least]
  | .optional (optional + 1) =>
    rw [repeated, nullable_copies _ advances, nullable_copies_self]
    exact Bool.and_true _

theorem nullable_operator (advances : operand.nullable = false)
    {c : Byte} (operator : (c = ch '?' || c = ch '*' || c = ch '+') = true) (isGreedy : Bool) :
    (Regex.closure (operatorOf c) isGreedy operand).nullable = decide (c ≠ ch '+') := by
  simp only [Bool.or_eq_true, decide_eq_true_eq] at operator
  rcases operator with (rfl | rfl) | rfl
  · rfl
  · rfl
  · exact advances

theorem closureOf_ends (terminal : operand.endsReluctant = false) (pre : Program)
    (reads : readClosure operand s = some outcome) :
    Ends (fun fuel => closureOf fuel pre.length operand.nullable
        ⟨s, pre ++ operand.code 0⟩) outcome (Compiled pre) := by
  have length : (pre ++ operand.code 0).length - pre.length = operand.size := by simp
  rw [readClosure, Reading.look_bind] at reads
  simp only [closureOf, size_bind, look_bind, length]
  split at reads
  · rename_i ended
    cases reads
    simp only [if_pos ended]
    exact Ends.ok ⟨rfl, rfl⟩ (.const _)
  rename_i more
  rw [Reading.look_bind] at reads
  simp only [if_neg more, look_bind]
  split at reads
  · rename_i operator
    rw [Reading.step_bind] at reads
    simp only [if_pos operator, step_bind]
    split at reads
    · rename_i bad
      cases reads
      simp only [bad, if_true]
      exact ⟨_, .const _⟩
    rename_i advances
    rw [Reading.look_bind] at reads
    simp only [if_neg advances, look_bind]
    rw [Bool.not_eq_true] at advances
    split at reads
    · rename_i question
      rw [Reading.step_bind] at reads
      cases reads
      simp only [if_pos question, step_bind]
      refine Ends.ok ⟨?_, rfl⟩ (settles_bind (reluctant_settles terminal pre _ _) (.const _))
      rw [nullable_operator advances operator]
    · rename_i question
      cases reads
      simp only [if_neg question]
      refine Ends.ok ⟨?_, rfl⟩ (settles_bind (greedy_settles terminal pre _ _) (.const _))
      rw [nullable_operator advances operator]
  rename_i noOperator
  simp only [if_neg noOperator]
  split at reads
  · rename_i brace
    simp only [if_pos brace]
    split at reads
    · rename_i bad
      cases reads
      simp only [bad, if_true]
      exact ⟨_, .const _⟩
    rename_i advances
    simp only [if_neg advances]
    rw [Bool.not_eq_true] at advances
    rcases scanned : s.bracket with ⟨result, after⟩
    cases result with
    | none =>
      rw [Reading.scan_bind_none scanned] at reads
      cases reads
      exact ⟨_, settles_bind_none _ (scan_settles _ scanned)⟩
    | some result =>
      rcases result with ⟨minimum, optional⟩
      rw [Reading.scan_bind_some scanned] at reads
      dsimp only at reads
      split at reads
      · rename_i none_
        cases reads
        simp only [Bool.and_eq_true, decide_eq_true_eq] at none_
        rcases none_ with ⟨rfl, rfl⟩
        exact ⟨_, settles_bind (scan_settles _ scanned) (.const _)⟩
      · rename_i some_
        cases reads
        simp only [Bool.and_eq_true, decide_eq_true_eq] at some_
        refine Ends.ok ⟨?_, rfl⟩ (counted_settles terminal pre scanned some_)
        rw [nullable_repeated advances some_]
  · rename_i noBrace
    cases reads
    simp only [if_neg noBrace]
    exact Ends.ok ⟨rfl, rfl⟩ (.const _)

end Coast.Compile
