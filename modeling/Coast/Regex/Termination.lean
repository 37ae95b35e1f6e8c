import Coast.Regex.CompileExpr
import Coast.Regex.MatchTotal
import Coast.Regex.PatternNullable
import Coast.Regex.PatternTotal

/-!
# Which patterns can be compiled

`compile` returns unless the pattern has a caret in a bracket expression that
is never stepped over, or a reluctant closure whose link makes a circle.
-/

namespace Coast

namespace Regex

open Fuel RECompiler

/-- The reading meets one of the two loops that are not left. -/
def Endless (pat : Bytes) : Prop :=
  ReadsAs pat (.error .endlessClass) ∨ ReadsAs pat (.error .endlessChain)

variable {pat : Bytes}

/-- What `compile` does behind `expr`. -/
private def finish (pat : Bytes) : Option (Nat × Bool) × RECompiler → Option Compiled × Bytes
  | (none, c) => (none, c.input.fErrorMsg)
  | (some _, c) =>
    if c.input.fPatternIdx = pat.length then
      (some ⟨c.fInstruction, prefixOf c.fInstruction⟩, c.input.fErrorMsg)
    else
      let s := if c.input.cur = ch ')' then
        c.input.syntaxError (lit "Unmatched close paren") else c.input
      (none, (s.syntaxError (lit "Unexpected input remains")).fErrorMsg)

private theorem compile_eq (pat : Bytes) (fuel : Nat) :
    compile fuel pat = (Compile.expr fuel false (start pat)).map (finish pat) := by
  rw [compile]
  congr 1

private theorem readsAs_cases {outcome : Except Stop Branches} (reads : ReadsAs pat outcome) :
    (∃ fuel stop, readExpr fuel (start pat).input = some (.error stop) ∧ outcome = .error stop) ∨
    ∃ fuel body s, readExpr fuel (start pat).input = some (.ok (body, s)) ∧
      outcome = if s.fPatternIdx = pat.length then .ok body else .error .syntaxError := by
  rcases reads with ⟨fuel, result, reads, rfl⟩
  change Reading.bind (readExpr fuel) _ _ = _ at reads
  rw [Reading.bind] at reads
  split at reads
  · cases reads
  · rename_i stop here
    cases reads
    exact .inl ⟨fuel, stop, here, rfl⟩
  · rename_i body s here
    refine .inr ⟨fuel, body, s, here, ?_⟩
    have pattern : s.fPattern = pat := readExpr_pattern here
    rw [Reading.look_bind] at reads
    simp only [PatternInput.ended, pattern, decide_eq_true_eq] at reads
    split at reads
    · rename_i atEnd
      cases reads
      rw [if_pos atEnd]
      rfl
    · rename_i more
      cases reads
      rw [if_neg more]
      rfl

theorem compile_tree {tree : Branches} (reads : ReadsAs pat (.ok tree)) :
    ∃ message, Settles (fun fuel => compile fuel pat)
      (some ⟨tree.program, prefixOf tree.program⟩, message) := by
  rcases readsAs_cases reads with ⟨_, _, _, same⟩ | ⟨_, body, s, here, same⟩
  · cases same
  · split at same
    · rename_i atEnd
      cases same
      rcases Compile.readExpr_ends here with ⟨value, _, rfl, settles⟩
      have result := (settles.map (finish pat)).congr (compile_eq pat)
      simp only [finish, if_pos atEnd] at result
      exact ⟨_, result⟩
    · cases same

theorem compile_syntaxError (reads : ReadsAs pat (.error .syntaxError)) :
    ∃ message, Settles (fun fuel => compile fuel pat) (none, message) := by
  rcases readsAs_cases reads with ⟨_, _, here, same⟩ | ⟨_, body, s, here, same⟩
  · cases same
    rcases Compile.readExpr_ends here with ⟨c, settles⟩
    exact ⟨_, (settles.map (finish pat)).congr (compile_eq pat)⟩
  · split at same
    · cases same
    · rename_i more
      rcases Compile.readExpr_ends here with ⟨value, _, rfl, settles⟩
      have result := (settles.map (finish pat)).congr (compile_eq pat)
      simp only [finish, if_neg more] at result
      exact ⟨_, result⟩

theorem compile_endless (endless : Endless pat) : Never (fun fuel => compile fuel pat) := by
  have stops : ∃ fuel stop, readExpr fuel (start pat).input =
      some (.error stop) ∧ stop ≠ .syntaxError := by
    rcases endless with reads | reads
    all_goals
      rcases readsAs_cases reads with ⟨fuel, stop, here, same⟩ |
        ⟨_, body, s, here, same⟩
      · cases same
        exact ⟨fuel, _, here, nofun⟩
      · split at same <;> cases same
  rcases stops with ⟨fuel, stop, here, loops⟩
  have never : Never (fun fuel => Compile.expr fuel false (start pat)) := by
    have ends := Compile.readExpr_ends here
    match stop, loops, ends with
    | .endlessClass, _, never => exact never
    | .endlessChain, _, never => exact never
  exact fun fuel => (compile_eq pat fuel).trans (Option.map_eq_none_iff.mpr (never fuel))

/-- The two loops that are not left: a caret in a bracket expression, and a
group behind a reluctant closure. -/
theorem compile_never_returns :
    (∀ fuel, compile fuel (lit "[a^]") = none) ∧ ∀ fuel, compile fuel (lit "a+?(b)") = none := by
  refine ⟨compile_endless (.inl ⟨20, _, rfl, rfl⟩), compile_endless (.inr ⟨20, _, rfl, rfl⟩)⟩

/-- `compile` returns exactly for the patterns whose reading does not meet one
of the two loops. -/
theorem compile_returns_iff (pat : Bytes) :
    (∃ fuel result, compile fuel pat = some result) ↔ ¬Endless pat := by
  constructor
  · rintro ⟨fuel, result, returns⟩ endless
    cases (compile_endless endless fuel).symm.trans returns
  · intro ends
    rcases readsAs_total pat with ⟨outcome, reads⟩
    match outcome, reads with
    | .ok tree, reads =>
      rcases compile_tree reads with ⟨message, settles⟩
      rcases settles.returns with ⟨fuel, returns⟩
      exact ⟨fuel, _, returns⟩
    | .error .syntaxError, reads =>
      rcases compile_syntaxError reads with ⟨message, settles⟩
      rcases settles.returns with ⟨fuel, returns⟩
      exact ⟨fuel, _, returns⟩
    | .error .endlessClass, reads => exact absurd (.inl reads) ends
    | .error .endlessChain, reads => exact absurd (.inr reads) ends

end Regex

/-!
## Which matches return

A match returns when every repetition of the pattern takes a character and
every offset of the program is one that a `short` holds.
-/

mutual

def Regex.Solid : Regex → Prop
  | .terminal (.atom text) => cstr text ≠ []
  | .terminal _ => True
  | .group _ body => body.Solid
  | .closure _ _ operand => operand.Solid
  | .nothing => True
  | .cat first rest => first.Solid ∧ rest.Solid

def Branches.Solid : Branches → Prop
  | .one branch => branch.Solid
  | .more branch rest => branch.Solid ∧ rest.Solid

end

mutual

theorem Regex.blank_of_solid : ∀ r : Regex, r.Solid → r.blank = r.nullable
  | .terminal (.atom _), solid => decide_eq_false solid
  | .terminal .bol, _ | .terminal .eol, _ | .terminal .any, _ => rfl
  | .terminal (.bow _), _ | .terminal (.backref _), _ => rfl
  | .terminal (.anyOf _), _ => rfl
  | .group _ body, solid => body.blank_of_solid solid
  | .closure .plus _ operand, solid => operand.blank_of_solid solid
  | .closure .question _ _, _ | .closure .star _ _, _ => rfl
  | .nothing, _ => rfl
  | .cat first rest, solid => by
      rw [Regex.blank, Regex.nullable, first.blank_of_solid solid.1, rest.blank_of_solid solid.2]

theorem Branches.blank_of_solid : ∀ b : Branches, b.Solid → b.blank = b.nullable
  | .one branch, solid => branch.blank_of_solid solid
  | .more branch rest, solid => by
      rw [Branches.blank, Branches.nullable, branch.blank_of_solid solid.1,
        rest.blank_of_solid solid.2]

end

mutual

theorem Regex.progresses_of_solid : ∀ r : Regex, r.Solid → r.Rejects → r.Progresses
  | .terminal _, _, _ => trivial
  | .group _ body, solid, rejects => body.progresses_of_solid solid rejects
  | .closure _ _ operand, solid, rejects =>
    ⟨operand.progresses_of_solid solid rejects.1, fun _ =>
      (operand.blank_of_solid solid).trans rejects.2⟩
  | .nothing, _, _ => trivial
  | .cat first rest, solid, rejects =>
    ⟨first.progresses_of_solid solid.1 rejects.1, rest.progresses_of_solid solid.2 rejects.2⟩

theorem Branches.progresses_of_solid : ∀ b : Branches, b.Solid → b.Rejects → b.Progresses
  | .one branch, solid, rejects => branch.progresses_of_solid solid rejects
  | .more branch rest, solid, rejects =>
    ⟨branch.progresses_of_solid solid.1 rejects.1, rest.progresses_of_solid solid.2 rejects.2⟩

end

namespace RE

open Fuel RECompiler Regex

/-- The operand of every repetition takes a character, also when an atom that
begins with a NUL is empty, and no offset is changed by the conversion to
`short`. -/
def Safe (pat : Bytes) : Prop :=
  ∃ tree, ReadsAs pat (.ok tree) ∧ tree.Progresses ∧ tree.program.Fits

/-- The nullable analysis of the compiler is enough for a pattern without an
atom that begins with a NUL. -/
theorem safe_of_solid {pat : Bytes} {tree : Branches}
    (reads : ReadsAs pat (.ok tree)) (solid : tree.Solid) (fits : tree.program.Fits) : Safe pat :=
  ⟨tree, reads, tree.progresses_of_solid solid (readsAs_rejects reads), fits⟩

/-- A match with a compiled pattern that is safe returns, and its run stays
in the program. -/
theorem matchNodes_returns {pat : Bytes} (safe : Safe pat) {bound : Nat} {compiled : Compiled}
    {message : Bytes} (compiles : compile bound pat = some (some compiled, message))
    (fSearch : Bytes) (fMatchFlags : MatchFlags) (i : Nat) :
    ∃ result after, Settles (fun fuel =>
      (ofCompiled compiled fSearch fMatchFlags).matchNodes fuel 0 (-1) i
        (matchStart i)) (.ok result, after) := by
  rcases safe with ⟨tree, reads, progresses, fits⟩
  rcases compile_tree reads with ⟨_, settles⟩
  cases settles.only bound _ compiles
  exact program_returns fits progresses rfl i

/-- The pattern `a+`. -/
private def plusTree : Branches := .one (.closure .plus true (.terminal (.atom (lit "a"))))

theorem matchNodes_returns_plus :
    ∃ result after, Settles (fun fuel =>
      (ofCompiled ⟨plusTree.program, some (.text (lit "a"))⟩ (lit "aab")
        ⟨false, false, false⟩).matchNodes fuel 0 (-1) 0 (matchStart 0))
      (.ok result, after) := by
  have reads : ReadsAs (lit "a+") (.ok plusTree) := ⟨20, _, rfl, rfl⟩
  have solid : plusTree.Solid := by
    show cstr (lit "a") ≠ []
    decide
  have compiles : compile 20 (lit "a+") =
      some (some ⟨plusTree.program, some (.text (lit "a"))⟩, []) := rfl
  exact matchNodes_returns (safe_of_solid reads solid (by decide)) compiles _ _ 0

private def nulStar : Branches := .one (.closure .star true (.terminal (.atom [0])))

private theorem nulStar_never (fuel : Nat) (st : MatchState) :
    (RE.mk nulStar.program [] ⟨false, false, false⟩).nodes fuel 1 8 0 st = none := by
  let re : RE := ⟨nulStar.program, [], ⟨false, false, false⟩⟩
  induction fuel using Nat.strong_induction_on generalizing st with
  | _ fuel ih =>
    match fuel with
    | 0 | 1 | 2 | 3 | 4 | 5 => rfl
    | fuel + 6 =>
      have again := ih fuel (by omega) st
      have operand : re.matchNodes (fuel + 4) 2 (-1) 0 st = re.nodes fuel 1 8 0 st := rfl
      have loop : re.nodes (fuel + 6) 1 8 0 st =
          (re.matchNodes (fuel + 4) 2 (-1) 0 st).bind _ := rfl
      rw [operand, again] at loop
      exact loop

/-- The compiler accepts a star of a NUL, and the match does not return. -/
theorem nulStar_accepted_endless :
    ∃ bound compiled message, compile bound (lit "\\x00*") = some (some compiled, message) ∧
      ∀ fuel, (ofCompiled compiled [] ⟨false, false, false⟩).matchNodes fuel 0
        (-1) 0 (matchStart 0) = none := by
  have reads : ReadsAs (lit "\\x00*") (.ok nulStar) := ⟨20, _, rfl, rfl⟩
  rcases compile_tree reads with ⟨message, settles⟩
  rcases settles.returns with ⟨bound, compiles⟩
  refine ⟨bound, _, message, compiles, fun fuel => ?_⟩
  match fuel with
  | 0 | 1 => rfl
  | fuel + 2 => exact nulStar_never fuel (matchStart 0)

end RE

end Coast
