import Coast.Regex.Spelling

/-!
# `ContainedIn`

The search for the leftmost match.  A program that begins with an atom is
tried only where the text of the atom stands in the subject.
-/

namespace Coast

open List Nat

namespace RE

open Fuel RECompiler Regex

/-- What a search gives: whether there is a match, and the registers. -/
abbrev SearchResult := Except MatchExit Bool × List Register

def prefixText (compiled : Compiled) : Bytes :=
  (compiled.literalPrefix.map OpData.asCharPtr).getD []

def prefixAt (re : RE) (fPrefix : Bytes) (i : Nat) : Bool :=
  if re.fMatchFlags.icase then
    sameCaseless fPrefix (re.subString i fPrefix.length)
  else fPrefix = re.subString i fPrefix.length

/-- The loop of `ContainedIn` over some positions, of which not all need be
tried. -/
def searchFrom (re : RE) (tries : Nat → Bool) (fuel : Nat) : Nat → Nat → Option SearchResult
  | 0, _ => some (.ok false, [])
  | positions + 1, i =>
    if tries i then
      (re.matchAt fuel i).bind fun
        | (.ok false, _) => re.searchFrom tries fuel positions (i + 1)
        | found => some found
    else re.searchFrom tries fuel positions (i + 1)

/-- The text is searched from a place on, by its prefix if there is one. -/
def containedIn (compiled : Compiled) (fMatchFlags : MatchFlags)
    (search : Bytes) (i fuel : Nat) : Option SearchResult :=
  let re := ofCompiled compiled search fMatchFlags
  let fPrefix := prefixText compiled
  if compiled.program = [] then some (.ok false, [])
  else if fPrefix.length ≤ 0 then
    re.searchFrom (fun _ => true) fuel (search.length + 1 - i) i
  else
    re.searchFrom (re.prefixAt fPrefix) fuel (search.length + 1 - fPrefix.length - i) i


theorem toNat_short_le (n : Nat) : (short n).toNat ≤ n := by
  have same : short n = (n : Int).bmod (2 ^ 16) := BitVec.toInt_ofInt _
  rw [same, Int.bmod]
  split
  · omega
  · omega

/-- The first node is a branch that leads to the end of the program. -/
structure Single (re : RE) (last : Nat) : Prop where
  behind : 1 < last
  opening : re.fProgram[0]? = some (instr .opBranch (.number 0) last)
  ending : re.fProgram[last]? = some (instr .opEnd (.number 0) 0)

namespace Single

variable {re : RE} {last i : Nat} (single : re.Single last)

include single

theorem length : last < re.fProgram.length := (List.getElem?_eq_some_iff.mp single.ending).1

theorem tryBranches (fuel : Nat) (st : MatchState) :
    re.tryBranches (fuel + 1) 0 i st = re.matchNodes fuel 1 (-1) i st := by
  have behind := single.behind
  have opening : re.nodeAt 0 = some (instr .opBranch (.number 0) last) := single.opening
  have ending : re.nodeAt (0 + (last : Int)) = some (instr .opEnd (.number 0) 0) := by
    rw [Int.zero_add, nodeAt_cast]
    exact single.ending
  have goesOn : ((last : Int) = 0) = False := by
    simp only [eq_iff_iff, iff_false]
    omega
  rw [RE.tryBranches]
  show Match.bind (re.matchNodes fuel 1 (-1) i) _ st = _
  rw [Match.bind]
  rcases re.matchNodes fuel 1 (-1) i st with _ | ⟨_ | _ | idx, after⟩
  · rfl
  · rfl
  · simp only [Option.bind_some, opening, instr, Option.getD_some, isBranch,
      ending, goesOn, if_false]
    rfl
  · rfl

/-- Wherever `short` leads, the first branch is entered: a negative index is
the branch itself. -/
theorem nodes_opening :
    ∃ several : Bool, ∀ fuel st, re.nodes (fuel + 1) 0 re.fProgram.length i st =
        if several then re.tryBranches fuel 0 i st
        else re.nodes fuel 1 re.fProgram.length i st := by
  have length := single.length
  have inside : (short last).toNat < re.fProgram.length :=
    Nat.lt_of_le_of_lt (toNat_short_le last) length
  have there : re.nodeAt ((0 : Nat) + short last) = some re.fProgram[(short last).toNat] := by
    rw [nodeAt, cast_zero, Int.zero_add, getElem?_eq_getElem inside]
  refine ⟨decide (re.fProgram[(short last).toNat].opcode = some .opBranch), fun fuel st => ?_⟩
  have before : ((0 : Nat) : Int) < re.fProgram.length := by omega
  have here := nodes_here single.opening before fuel i
  rw [cast_zero] at here there
  rw [here, turn]
  show Match.bind (re.isBranch _) _ _ = _
  rw [isBranch, cast_zero, there]
  show (if _ then re.tryBranches fuel 0 i else re.nodes fuel 1 re.fProgram.length i) st = _
  split
  · rfl
  · rfl

theorem yields {st : MatchState} {Post : Option Nat → MatchState → Prop}
    (rest : re.Runs re.fProgram.length 1 i st Post) :
    Match.Yields (fun fuel => re.matchNodes fuel 0 (-1) i) st Post := by
  rcases single.nodes_opening (i := i) with ⟨several, first⟩
  have opened : Match.Yields (fun fuel => re.nodes fuel 0 re.fProgram.length i) st Post := by
    cases several with
    | false =>
      exact (rest _ (Int.le_refl _)).succ (by rw [nodes]) fun fuel =>
        funext fun st => first fuel st
    | true =>
      have tries : Match.Yields (fun fuel => re.tryBranches fuel 0 i) st
          Post :=
        (rest.call (Int.le_refl _)).succ (by rw [RE.tryBranches])
          fun fuel => funext fun st => single.tryBranches fuel st
      exact tries.succ (by rw [nodes]) fun fuel =>
        funext fun st => first fuel st
  exact opened.succ (by rw [matchNodes]) fun fuel => by
    rw [matchNodes]
    rfl

end Single

/-- A program that begins with an atom, in a branch without another choice,
as `compile` looks at it. -/
structure StartsWith (re : RE) (opdata : OpData) (last : Nat) : Prop extends Single re last where
  atom : ∃ offset, re.fProgram[1]? = some (instr .opAtom opdata offset)

section

variable {re : RE} {opdata : OpData} {last i : Nat} (starts : re.StartsWith opdata last)

include starts

theorem StartsWith.nodes_miss (misses : re.matchAtom opdata.asCharPtr i = false)
    {bound : Int} (before : 1 < bound) (fuel : Nat) (st : MatchState) :
    re.nodes (fuel + 1) 1 bound i st = some (.ok none, st) := by
  rcases starts.atom with ⟨offset, atom⟩
  have here := nodes_here (p := 1) atom before fuel i
  have failed : re.consume .opAtom opdata i st = .ok none := by
    rw [consume, misses]
    rfl
  rw [cast_one] at here
  rw [here, turn]
  · show Match.bind (Match.read _) _ st = _
    rw [Match.bind, Match.read, failed]
    rfl
  all_goals decide

theorem StartsWith.matchAt_miss (misses : re.matchAtom opdata.asCharPtr i = false)
    {fuel : Nat} (large : 5 ≤ fuel) : re.matchAt fuel i = some (.ok false, []) := by
  obtain ⟨fuel, rfl⟩ := Nat.exists_eq_add_of_le' large
  have length := starts.length
  have behind := starts.behind
  have before : (1 : Int) < re.fProgram.length := by omega
  have second := starts.nodes_miss misses before
  rcases starts.toSingle.nodes_opening (i := i) with ⟨several, first⟩
  rw [matchAt, matchNodes, if_pos (by decide), first]
  split
  · rw [starts.toSingle.tryBranches, matchNodes, if_pos (by decide), second]
    rfl
  · rw [second]
    rfl

end

section

variable {re : RE} {fPrefix : Bytes} {i : Nat}

theorem prefixAt_eq (nulFree : NulFree fPrefix) (inside : fPrefix.length + i ≤ re.fSearch.length) :
    re.prefixAt fPrefix i = re.matchAtom fPrefix i := by
  have length : (re.subString i fPrefix.length).length = fPrefix.length := by
    rw [subString, length_take, length_drop]
    omega
  rw [prefixAt, matchAtom, decide_eq_true inside, Bool.true_and]
  split
  · rfl
  · rw [sameFirst, take_length, cstr_of_nulFree nulFree, ← subString]
    apply decide_eq_decide.mpr
    constructor
    · intro same
      rw [← same, cstr_of_nulFree nulFree]
    · intro same
      have whole : (cstr (re.subString i fPrefix.length)).length =
          (re.subString i fPrefix.length).length := by
        rw [same, length]
      have isPart : cstr (re.subString i fPrefix.length) <+:
          re.subString i fPrefix.length := takeWhile_prefix _
      exact same.symm.trans (isPart.eq_of_length whole)

theorem matchAtom_outside (outside : re.fSearch.length < fPrefix.length + i) :
    re.matchAtom fPrefix i = false := by
  rw [matchAtom, decide_eq_false (not_le.mpr outside), Bool.false_and]

end

end RE

theorem Regex.code_cons : ∀ (r : Regex) (next : Int),
    ∃ opcode opdata offset rest, r.code next = instr opcode opdata offset :: rest
  | .nothing, _ => ⟨_, _, _, _, rfl⟩
  | .terminal _, _ => ⟨_, _, _, _, rfl⟩
  | .group _ _, _ => ⟨_, _, _, _, rfl⟩
  | .closure .question true _, _ => ⟨_, _, _, _, rfl⟩
  | .closure .star true _, _ => ⟨_, _, _, _, rfl⟩
  | .closure .plus true operand, next => by
      rcases operand.code_cons 1 with ⟨opcode, opdata, offset, rest, code⟩
      refine ⟨opcode, opdata, offset, rest ++
        [instr .opBranch (.number 0) 2, instr .opGoto (.number 0) (-((operand.code 0).length + 1)),
          instr .opBranch (.number 0) 1,
          instr .opNothing (.number 0) next], ?_⟩
      rw [Regex.code, if_pos rfl, ClosureOperator.greedyCode, code]
      rfl
  | .closure _ false _, _ => ⟨_, _, _, _, rfl⟩
  | .cat first rest, next => by
      rcases first.code_cons 1 with ⟨opcode, opdata, offset, front, code⟩
      refine ⟨opcode, opdata, offset, front ++ rest.code next, ?_⟩
      rw [Regex.code, code]
      rfl

theorem Branches.code_cons (tree : Branches) :
    ∃ (last : Nat) (rest : Program), tree.code = instr .opBranch (.number 0) last :: rest := by
  cases tree with
  | one branch =>
    refine ⟨branch.size + 1, branch.code 1, ?_⟩
    rw [Branches.code, Regex.length_code]
    rfl
  | more branch others =>
    refine ⟨branch.size + 1, branch.code (others.code.length + 1) ++ others.code, ?_⟩
    rw [Branches.code, Regex.length_code]
    rfl

namespace RE

open Fuel RECompiler Regex

theorem compiled_tree {bound : Nat} {pat : Bytes} {compiled : Compiled} {message : Bytes}
    (compiles : compile bound pat = some (some compiled, message)) :
    ∃ tree, ReadsAs pat (.ok tree) ∧ compiled = ⟨tree.program, prefixOf tree.program⟩ := by
  rcases readsAs_total pat with ⟨outcome, reads⟩
  match outcome, reads with
  | .ok tree, reads =>
    rcases compile_tree reads with ⟨_, settles⟩
    cases settles.only bound _ compiles
    exact ⟨tree, reads, rfl⟩
  | .error .syntaxError, reads =>
    rcases compile_syntaxError reads with ⟨_, settles⟩
    cases settles.only bound _ compiles
  | .error .endlessClass, reads =>
    cases (compile_endless (.inl reads) bound).symm.trans compiles
  | .error .endlessChain, reads =>
    cases (compile_endless (.inr reads) bound).symm.trans compiles

theorem startsWith_of_prefixOf {tree : Branches} {opdata : OpData}
    (hasPrefix : prefixOf tree.program = some opdata) (search : Bytes) (flags : MatchFlags) :
    ∃ last : Nat, StartsWith ⟨tree.program, search, flags⟩ opdata last := by
  cases tree with
  | one branch =>
    rcases branch.code_cons 1 with ⟨opcode, data, offset, rest, code⟩
    have pos := branch.size_pos
    have whole : Branches.program (.one branch) =
        instr .opBranch (.number 0) ((branch.size + 1 : Nat) : Int) ::
          (branch.code 1 ++ [instr .opEnd (.number 0) 0]) := by
      rw [Branches.program, Branches.code, Regex.length_code]
      rfl
    have atom : (Branches.program (.one branch))[1]? = some (instr opcode data offset) := by
      rw [whole, code]
      rfl
    have ending : (Branches.program (.one branch))[branch.size + 1]? =
        some (instr .opEnd (.number 0) 0) := by
      rw [whole, getElem?_cons_succ, getElem?_append_right (by rw [Regex.length_code]),
        Regex.length_code, Nat.sub_self]
      rfl
    have node : Program.node (Branches.program (.one branch)) 1 = instr opcode data offset := by
      rw [Program.node, getD_eq_getElem?_getD, atom]
      rfl
    rw [prefixOf] at hasPrefix
    split at hasPrefix
    · rename_i shape
      rw [Bool.and_eq_true, node] at shape
      rw [node] at hasPrefix
      cases of_decide_eq_true shape.2
      cases hasPrefix
      exact ⟨branch.size + 1, ⟨by omega, by rw [whole]; rfl, ending⟩, ⟨offset, atom⟩⟩
    · cases hasPrefix
  | more branch others =>
    rcases others.code_cons with ⟨next, rest, code⟩
    have whole : Branches.program (.more branch others) =
        instr .opBranch (.number 0) ((branch.size + 1 : Nat) : Int) ::
          (branch.code (others.code.length + 1) ++
            instr .opBranch (.number 0) next :: (rest ++ [instr .opEnd (.number 0) 0])) := by
      rw [Branches.program, Branches.code, Regex.length_code]
      simp [code]
    have first : Program.next (Branches.program (.more branch others)) 0 =
        ((branch.size + 1 : Nat) : Int) := by
      rw [whole]
      rfl
    have second : Program.node (Branches.program (.more branch others))
        (branch.size + 1) = instr .opBranch (.number 0) next := by
      rw [Program.node, getD_eq_getElem?_getD, whole, getElem?_cons_succ,
        getElem?_append_right (by rw [Regex.length_code]),
        Regex.length_code, Nat.sub_self]
      rfl
    simp [prefixOf, first, second, instr] at hasPrefix

theorem program_ne_nil (tree : Branches) : tree.program ≠ [] :=
  append_ne_nil_of_right_ne_nil _ (cons_ne_nil _ _)

section

variable {tree : Branches} {opdata : OpData} {search : Bytes} {flags : MatchFlags} {i fuel : Nat}

theorem containedIn_unfiltered {literalPrefix : Option OpData}
    (none_ : prefixText ⟨tree.program, literalPrefix⟩ = []) :
    containedIn ⟨tree.program, literalPrefix⟩ flags search i fuel =
      (RE.mk tree.program search flags).searchFrom (fun _ => true) fuel
        (search.length + 1 - i) i := by
  rw [containedIn, if_neg (program_ne_nil tree), none_, if_pos (by decide)]
  rfl

variable (some_ : opdata.asCharPtr ≠ [])

include some_

theorem containedIn_filtered :
    containedIn ⟨tree.program, some opdata⟩ flags search i fuel =
      (RE.mk tree.program search flags).searchFrom
        ((RE.mk tree.program search flags).prefixAt opdata.asCharPtr) fuel
        (search.length + 1 - opdata.asCharPtr.length - i) i := by
  have length := length_pos_iff.mpr some_
  have text : prefixText ⟨tree.program, some opdata⟩ = opdata.asCharPtr := rfl
  rw [containedIn, if_neg (program_ne_nil tree), text, if_neg (by omega)]
  rfl

variable (hasPrefix : prefixOf tree.program = some opdata)

include hasPrefix

end

end RE

end Coast
