import Coast.Regex.CompileBranches

/-!
# Expressions

The branches of an expression are linked to each other, and their ends are
hooked to the end node.
-/

namespace Coast.Compile

open Fuel Regex Program List Option Nat

def linkedBranch (body : Program) : Program := instr .opBranch (.number 0) (body.length + 1) :: body

def row (bodies : List Program) : Program := (bodies.map linkedBranch).flatten

@[simp]
theorem row_cons (body : Program) (bodies : List Program) :
    row (body :: bodies) = linkedBranch body ++ row bodies := rfl

@[simp]
theorem row_concat (bodies : List Program) (last : Program) :
    row (bodies ++ [last]) = row bodies ++ linkedBranch last := by
  simp [row]

@[simp]
theorem length_linkedBranch (body : Program) : (linkedBranch body).length = body.length + 1 := rfl

theorem linkedBranch_within (body : Program) : Within (linkedBranch body) 0 (body.length + 1) :=
  Within.node rfl (by omega) (by simp)

theorem row_within (bodies : List Program) : Within (row bodies) 0 (row bodies).length := by
  induction bodies with
  | nil => exact .refl _ _
  | cons body bodies ih =>
    have first := (linkedBranch_within body).left (row bodies)
    have rest := ih.right (linkedBranch body)
    rw [add_zero, length_linkedBranch] at rest
    rw [row_cons, length_append, length_linkedBranch]
    exact first.trans rest

/-- The bodies of the branches of an expression, which has no tree when one of
its branches has none. -/
inductive RowOf : Option Branches → List Program → Prop where
  | one {r : Option Regex} {body : Program} (isBody : BodyOf r body) : RowOf (r.map .one) [body]
  | more {r : Option Regex} {body : Program} {rest : Option Branches}
      {bodies : List Program} (isBody : BodyOf r body)
      (rows : RowOf rest bodies) :
      RowOf (r.bind fun first => rest.map (.more first ·)) (body :: bodies)

theorem linkBranch_settles {ret : Nat} (pre body post : Program)
    (leads : ∀ post, Leads (chainNext (pre ++ post)) ret pre.length) :
    Settles (fun fuel => Program.setNextOfEnd fuel
        (pre ++ opening :: body ++ post) ret (pre ++ opening :: body).length)
      (pre ++ linkedBranch body ++ post) := by
  refine link_from pre (body ++ post) .opBranch (.number 0) (body.length + 1) ?_ ?_ ?_ ?_
  · simp [opening]
  · rw [append_assoc]
    exact leads _
  · simp
  · simp [linkedBranch]

/-- What the loop gives: linked branches, the last of which leads nowhere. -/
def CompiledBranches (pre : Program) (before : Bool) (r : Option Branches)
    (value : Bool) (after : Program) : Prop :=
  (∀ tree, r = some tree → value = (before || tree.nullable)) ∧
    ∃ front last, after = pre ++ row front ++ opening :: last ∧ RowOf r (front ++ [last])

section

variable {inner : Reading Regex} (endsInner : EndsInner inner)
  (takes : Reading.Takes inner) {fuel : Nat}

include endsInner takes

theorem readBranches_ends {turns ret : Nat} {s : PatternInput} {first : Option Regex}
    {body : Program} (pre : Program) (isBody : BodyOf first body)
    (leads : ∀ post, Leads (chainNext (pre ++ post)) ret pre.length) {isnullable : Bool}
    (before : Bool) (nullable : ∀ tree, first = some tree → isnullable = (before || tree.nullable))
    {outcome : Except Stop (Option Branches × PatternInput)} (parentheses : 1 ≤ s.fNofParentheses)
    (reads : readBranches inner fuel turns first s = some outcome) :
    Ends (fun fuel => branches fuel ret isnullable
        ⟨s, pre ++ opening :: body⟩) outcome (CompiledBranches pre before) := by
  induction turns generalizing s first body pre isnullable before outcome with
  | zero => cases reads
  | succ turns ih =>
    rw [readBranches, Reading.look_bind] at reads
    split at reads
    · rename_i another
      rw [Reading.step_bind] at reads
      have unroll (fuel : Nat) : branches (fuel + 1) ret isnullable
          ⟨s, pre ++ opening :: body⟩ =
          (branch fuel >>= fun value => setNextOfEnd fuel ret value.1 >>=
            fun _ => branches fuel ret (isnullable || value.2))
            ⟨s.skip 1, pre ++ opening :: body⟩ := by
        simp only [branches, look_bind, if_pos another]
        rfl
      refine Ends.succ (Ends.bind reads (fun o here => readBranch_ends
        endsInner takes _ parentheses here) ?_) rfl unroll
      rintro second t ⟨node, branchnullable⟩ _ here ⟨rfl, secondNullable, next, rfl, isNext⟩ rest
      have settles := linkBranch_settles pre body (opening :: next) leads
      refine Ends.after (setNextOfEnd_settles t settles) ?_
      have before' := readBranch_keeps takes fuel _ second t here
      have leads' (post : Program) :
          Leads (chainNext (pre ++ linkedBranch body ++ post)) ret
            (pre ++ linkedBranch body).length := by
        have rest := linkedBranch_within body pre post
        rw [append_assoc] at rest ⊢
        simpa using (leads _).trans rest
      have ends := fun o => @ih t second next (pre ++ linkedBranch body) isNext leads'
        (isnullable || branchnullable) isnullable
        (fun tree same => congrArg _ (secondNullable tree same)) o
        (le_trans parentheses before'.parentheses)
      refine Ends.map rest ends ?_
      rintro others value _ ⟨restNullable, front, last, rfl, rows⟩
      refine ⟨?_, body :: front, last, by simp, .more isBody rows⟩
      rintro _ same
      obtain ⟨tree, rfl, same⟩ := bind_eq_some_iff.mp same
      obtain ⟨trees, rfl, rfl⟩ := map_eq_some_iff.mp same
      rw [restNullable trees rfl, nullable tree rfl, Branches.nullable, Bool.or_assoc]
    · rename_i ended
      cases reads
      have unroll (fuel : Nat) : branches (fuel + 1) ret isnullable
          ⟨s, pre ++ opening :: body⟩ =
          some (some isnullable, ⟨s, pre ++ opening :: body⟩) := by
        simp only [branches, look_bind, if_neg ended]
        rfl
      refine Ends.ok ⟨?_, [], body, by simp [row], .one isBody⟩ ((Settles.const _).succ rfl unroll)
      rintro _ same
      obtain ⟨tree, rfl, rfl⟩ := map_eq_some_iff.mp same
      exact nullable tree rfl

end

/-! ## The ends of the branches -/

theorem hookEnd_settles (r : Regex) (pre rest : Program)
    (restWithin : Within rest 0 rest.length) (opcode : Opcode) (opdata : OpData) :
    let e := instr opcode opdata 0
    Settles (fun fuel => Program.setNextOfEnd fuel (pre ++ r.code 0 ++ rest ++ [e]) pre.length
        (pre ++ r.code 0 ++ rest).length)
      (pre ++ r.code (rest.length + 1) ++ rest ++ [e]) := by
  intro e
  cases reluctant : r.endsReluctant with
  | false =>
    refine link reluctant pre (rest ++ [e]) (rest.length + 1) ?_ rfl ?_ ?_
    · simp
    · simp
      omega
    · simp
  | true =>
    have toRest := r.code_within 0 pre (rest ++ [e])
    rw [lastIndex, if_pos reluctant, add_zero] at toRest
    have toEnd := restWithin (pre ++ r.code 0) [e]
    refine link_from (pre ++ r.code 0 ++ rest) [] opcode opdata 0 rfl ?_ (by simp) ?_
    · rw [add_zero, length_append, Regex.length_code] at toEnd
      have leads := toRest.trans (by simpa using toEnd)
      simpa [add_assoc] using leads
    · rw [code_reluctant reluctant (rest.length + 1)]

theorem node_front (pre post : Program) (n : Node) : node (pre ++ n :: post) pre.length = n :=
  node_append_right pre (n :: post) 0

theorem next_front (pre post : Program) (opcode : Opcode) (opdata : OpData) (offset : Int) :
    next (pre ++ instr opcode opdata offset :: post) pre.length = offset := by
  rw [Program.next, node_front]
  rfl

theorem hookEnds_branch (pre body post : Program) (last fuel : Nat) :
    hookEnds last (fuel + 1) pre.length (pre ++ linkedBranch body ++ post) =
      (Program.setNextOfEnd fuel (pre ++ linkedBranch body ++ post)
        (pre.length + 1) last).bind fun program =>
          if program.next pre.length = 0 then some program
          else hookEnds last fuel (pre.length + program.next pre.length).toNat program := by
  have here : node (pre ++ linkedBranch body ++ post) pre.length =
      instr .opBranch (.number 0) (body.length + 1) := by
    rw [append_assoc]
    exact node_front pre _ _
  rw [hookEnds, here]
  rfl

theorem hookEnds_end (pre : Program) {opcode : Opcode} (opdata : OpData)
    (other : opcode ≠ .opBranch) :
    Settles (fun fuel => hookEnds pre.length fuel pre.length (pre ++ [instr opcode opdata 0]))
      (pre ++ [instr opcode opdata 0]) := by
  refine (Settles.const _).succ rfl fun fuel => ?_
  have here := node_front pre [] (instr opcode opdata 0)
  have noBranch : (instr opcode opdata 0).opcode ≠ some .opBranch :=
    fun same => other (Option.some.inj same)
  rw [hookEnds, here, if_neg noBranch]
  simp [next_front]

theorem hookEnds_next (pre body post : Program) (last fuel : Nat) :
    (if (pre ++ linkedBranch body ++ post).next pre.length = 0 then
        some (pre ++ linkedBranch body ++ post)
      else hookEnds last fuel
        (pre.length + (pre ++ linkedBranch body ++ post).next pre.length).toNat
          (pre ++ linkedBranch body ++ post)) =
      hookEnds last fuel (pre ++ linkedBranch body).length (pre ++ linkedBranch body ++ post) := by
  have next : next (pre ++ linkedBranch body ++ post) pre.length = body.length + 1 := by
    rw [append_assoc, linkedBranch, cons_append, next_front]
  have more : (body.length + 1 : Int) ≠ 0 := by omega
  have target : (pre.length + (body.length + 1) : Int).toNat =
      (pre ++ linkedBranch body).length := by
    simp
    omega
  rw [next, if_neg more, target]

section

variable {r : Regex} {bodies : List Program} {pre : Program} {opcode : Opcode}
  {opdata : OpData} {last : Nat}
  (isLast : last = (pre ++ linkedBranch (r.code 0) ++ row bodies).length)

include isLast

theorem hookBranch_settles :
    Settles (fun fuel => Program.setNextOfEnd fuel
        (pre ++ linkedBranch (r.code 0) ++
          (row bodies ++ [instr opcode opdata 0])) (pre.length + 1) last)
      (pre ++ linkedBranch (r.code ((row bodies).length + 1)) ++
        (row bodies ++ [instr opcode opdata 0])) := by
  subst isLast
  have hooked := hookEnd_settles r (pre ++ [instr .opBranch (.number 0) (r.size + 1)]) (row bodies)
    (row_within bodies) opcode opdata
  simpa [linkedBranch, add_assoc] using hooked

theorem hookEnds_step {result : Program}
    (rest : Settles (fun fuel => hookEnds last fuel
        (pre ++ linkedBranch (r.code ((row bodies).length + 1))).length
        (pre ++ linkedBranch (r.code ((row bodies).length + 1)) ++
          (row bodies ++ [instr opcode opdata 0]))) result) :
    Settles (fun fuel => hookEnds last fuel pre.length
        (pre ++ linkedBranch (r.code 0) ++ (row bodies ++ [instr opcode opdata 0]))) result :=
  ((hookBranch_settles isLast).bind (rest.congr (hookEnds_next _ _ _ _))).succ
    rfl (hookEnds_branch _ _ _ _)

theorem hookEnds_step_never (rest : Never (fun fuel => hookEnds last fuel
        (pre ++ linkedBranch (r.code ((row bodies).length + 1))).length
        (pre ++ linkedBranch (r.code ((row bodies).length + 1)) ++
          (row bodies ++ [instr opcode opdata 0])))) :
    Never (fun fuel => hookEnds last fuel pre.length
        (pre ++ linkedBranch (r.code 0) ++ (row bodies ++ [instr opcode opdata 0]))) :=
  (Never.after (hookBranch_settles isLast) fun fuel =>
    (hookEnds_next _ _ _ _ fuel).trans (rest fuel)).succ rfl (hookEnds_branch _ _ _ _)

end

theorem hookEnds_knot {body : Program} (knotted : Knotted body 0)
    (pre post : Program) (last : Nat) :
    Never (fun fuel => hookEnds last fuel pre.length (pre ++ linkedBranch body ++ post)) := by
  have never := knotted.never (pre ++ [instr .opBranch (.number 0) (body.length + 1)]) post last
  have chain : Never (fun fuel => Program.setNextOfEnd fuel
      (pre ++ linkedBranch body ++ post) (pre.length + 1) last) := by
    simpa [linkedBranch] using never
  exact (chain.bind _).succ rfl (hookEnds_branch _ _ _ _)

variable {r : Option Branches} {bodies : List Program}

section

variable (rows : RowOf r bodies)
include rows

theorem RowOf.length :
    ∀ tree, r = some tree → (row bodies).length = tree.size := by
  induction rows with
  | one isBody =>
    rintro _ same
    obtain ⟨tree, rfl, rfl⟩ := map_eq_some_iff.mp same
    rw [isBody]
    simp [row, Branches.size]
  | more isBody _ ih =>
    rintro _ same
    obtain ⟨tree, rfl, same⟩ := bind_eq_some_iff.mp same
    obtain ⟨trees, rfl, rfl⟩ := map_eq_some_iff.mp same
    rw [isBody, row_cons, length_append, ih trees rfl]
    simp [Branches.size]

theorem RowOf.hookEnds_settles (opcode : Opcode) (opdata : OpData)
    (other : opcode ≠ .opBranch) (pre : Program) {tree : Branches} (isTree : r = some tree) :
    Settles (fun fuel => hookEnds (pre ++ row bodies).length fuel pre.length
        (pre ++ row bodies ++ [instr opcode opdata 0]))
      (pre ++ tree.code ++ [instr opcode opdata 0]) := by
  induction rows generalizing pre tree with
  | one isBody =>
    obtain ⟨branch, rfl, rfl⟩ := map_eq_some_iff.mp isTree
    subst isBody
    have ended := hookEnds_end (pre ++ linkedBranch (branch.code 1)) opdata other
    rw [row_cons, ← append_assoc, append_assoc _ (row _)]
    refine hookEnds_step rfl ?_
    simpa [row, linkedBranch, Branches.code] using ended
  | @more _ _ _ bodies isBody rows ih =>
    obtain ⟨branch, rfl, same⟩ := bind_eq_some_iff.mp isTree
    obtain ⟨trees, rfl, rfl⟩ := map_eq_some_iff.mp same
    subst isBody
    have rest := ih (pre ++ linkedBranch (branch.code ((row bodies).length + 1))) rfl
    rw [row_cons, ← append_assoc, append_assoc _ (row _)]
    refine hookEnds_step rfl ?_
    simpa [linkedBranch, Branches.code, rows.length] using rest

theorem RowOf.hookEnds_never (opcode : Opcode) (opdata : OpData)
    (pre : Program) (noTree : r = none) :
    Never (fun fuel => hookEnds (pre ++ row bodies).length fuel pre.length
        (pre ++ row bodies ++ [instr opcode opdata 0])) := by
  induction rows generalizing pre with
  | one isBody =>
    obtain rfl := map_eq_none_iff.mp noTree
    rw [row_cons, ← append_assoc, append_assoc _ (row _)]
    exact hookEnds_knot isBody _ _ _
  | @more first _ rest bodies isBody rows ih =>
    rw [row_cons, ← append_assoc, append_assoc _ (row _)]
    cases first with
    | none => exact hookEnds_knot isBody _ _ _
    | some branch =>
      cases rest with
      | some trees => cases noTree
      | none =>
        subst isBody
        have never := ih (pre ++ linkedBranch (branch.code ((row bodies).length + 1))) rfl
        refine hookEnds_step_never rfl ?_
        simpa using never

end

theorem closeRow_settles {ret : Nat} (pre : Program)
    (leads : ∀ post, Leads (chainNext (pre ++ post)) ret pre.length)
    (front : List Program) (last post : Program) :
    Settles (fun fuel => Program.setNextOfEnd fuel (pre ++ row front ++ opening :: last ++ post) ret
        (pre ++ row front ++ opening :: last).length)
      (pre ++ row (front ++ [last]) ++ post) := by
  have leads' (post : Program) : Leads (chainNext (pre ++ row front ++ post))
      ret (pre ++ row front).length := by
    have inside := row_within front pre post
    rw [add_zero] at inside
    rw [append_assoc] at inside ⊢
    rw [length_append]
    exact (leads _).trans inside
  simpa using linkBranch_settles (pre ++ row front) last post leads'

def hooking (fuel ret last : Nat) (isnullable : Bool) : Compile (Nat × Bool) := do
  setNextOfEnd fuel ret last
  generate (hookEnds last fuel ret)
  pure (ret, isnullable)

section

variable {program linked after : Program} {ret last : Nat}
  (s : PatternInput) (isnullable : Bool)
  (closed : Settles (fun fuel =>
    Program.setNextOfEnd fuel program ret last) linked)

include closed

theorem hooking_settles (hooked : Settles (fun fuel => hookEnds last fuel ret linked) after) :
    Settles (fun fuel => hooking fuel ret last isnullable ⟨s, program⟩)
      (some (ret, isnullable), ⟨s, after⟩) :=
  settles_bind (setNextOfEnd_settles s closed) (settles_bind (generate_settles s hooked) (.const _))

theorem hooking_never (never : Never (fun fuel => hookEnds last fuel ret linked)) :
    Never (fun fuel => hooking fuel ret last isnullable ⟨s, program⟩) := by
  refine never_after (setNextOfEnd_settles s closed) (never_bind _ ?_)
  intro fuel
  simp only [generate, never fuel]
  rfl

end

def closing (fuel ret : Nat) (paren : Bool) (closeParens : Nat)
    (isnullable : Bool) : Compile (Nat × Bool) := do
  let last ← closeExpr paren closeParens
  hooking fuel ret last isnullable

def closed (s : PatternInput) (number : Nat) : PatternInput :=
  { s.skip 1 with
    fMaskOfClosedParentheses := s.fMaskOfClosedParentheses ||| parenthesisBit number }

theorem closing_paren {s : PatternInput} (program : Program)
    (paren : s.cur = ch ')') (ret number : Nat) (isnullable : Bool) (fuel : Nat) :
    closing fuel ret true number isnullable ⟨s, program⟩ =
      hooking fuel ret program.length isnullable
        ⟨closed s number, program ++ [instr .opClose (.number number) 0]⟩ := by
  have close : closeExpr true number ⟨s, program⟩ = some (some program.length, ⟨closed s number,
        program ++ [instr .opClose (.number number) 0]⟩) := by
    simp only [closeExpr, if_true, look_bind, if_pos paren]
    rfl
  change Compile.bind (closeExpr true number) _ ⟨s, program⟩ = _
  rw [Compile.bind, close]
  rfl

theorem closing_noParen {s : PatternInput} (program : Program)
    (noParen : s.cur ≠ ch ')') (ret number : Nat) (isnullable : Bool) (fuel : Nat) :
    closing fuel ret true number isnullable ⟨s, program⟩ =
      some (none, ⟨s.syntaxError (lit "Missing close paren"), program⟩) := by
  have close : closeExpr true number ⟨s, program⟩ =
      some (none, ⟨s.syntaxError (lit "Missing close paren"), program⟩) := by
    simp only [closeExpr, if_true, look_bind, if_neg noParen]
    rfl
  change Compile.bind (closeExpr true number) _ ⟨s, program⟩ = _
  rw [Compile.bind, close]
  rfl

theorem expr_succ {s : PatternInput} (program : Program)
    (parentheses : 1 ≤ s.fNofParentheses) (paren : s.cur = ch '(') (fuel : Nat) :
    expr (fuel + 1) false ⟨s, program⟩ = (branch fuel >>= fun value =>
        setNextOfEnd fuel program.length value.1 >>= fun _ =>
        branches fuel program.length value.2 >>= fun isnullable =>
        closing fuel program.length true s.fNofParentheses isnullable)
        ⟨{ s.skip 1 with fNofParentheses := s.fNofParentheses + 1 },
          program ++ [instr .opOpen (.number s.fNofParentheses) 0]⟩ := by
  have opens : openExpr ⟨s, program⟩ = some (some (some program.length, s.fNofParentheses),
      ⟨{ s.skip 1 with fNofParentheses := s.fNofParentheses + 1 },
        program ++ [instr .opOpen (.number s.fNofParentheses) 0]⟩) := by
    rw [openExpr, if_neg (not_lt.mpr parentheses), if_pos paren]
    rfl
  change Compile.bind openExpr _ ⟨s, program⟩ = _
  rw [Compile.bind, opens]
  rfl

theorem hookEnds_open (pre post : Program) (number last fuel : Nat) :
    hookEnds last (fuel + 1) pre.length
        (pre ++ [instr .opOpen (.number number) 1] ++ post) =
      hookEnds last fuel (pre ++ [instr .opOpen (.number number) 1]).length
        (pre ++ [instr .opOpen (.number number) 1] ++ post) := by
  have here := node_front pre post (instr .opOpen (.number number) 1)
  have noBranch : (instr .opOpen (.number number) 1).opcode ≠ some .opBranch := nofun
  rw [append_assoc, singleton_append, hookEnds, here, if_neg noBranch]
  simp [next_front]

section

variable {program pre : Program} {number : Nat} {u : PatternInput}
  {isnullable : Bool}
  (isPre : pre = program ++ [instr .opOpen (.number number) 1])

include isPre

theorem open_leads (post : Program) :
    Leads (chainNext (pre ++ post)) program.length pre.length := by
  subst isPre
  refine leads_node program post .opOpen (.number number) 1 ?_ rfl Int.one_ne_zero ?_
  · simp
  · simp

theorem closeGroup_ends {tree : Option Branches} {after : Program}
    {outcome : Except Stop (Regex × PatternInput)}
    (reads : (do
        if (← Reading.look PatternInput.cur) = ch ')' then
          Reading.step (closed · number)
          match tree with
          | some body => pure (.group number body)
          | none => Reading.stop .endlessChain
        else Reading.stop .syntaxError : Reading Regex) u = some outcome)
    (compiled : CompiledBranches pre false tree isnullable after) :
    Ends (fun fuel =>
        closing fuel program.length true number isnullable ⟨u, after⟩)
      outcome (CompiledTerminal program) := by
  rcases compiled with ⟨treeNullable, front, last, rfl, rows⟩
  let bodies := front ++ [last]
  let close := instr .opClose (.number number) 0
  have linked := closeRow_settles pre (open_leads isPre) front last [close]
  have index : (pre ++ row front ++ opening :: last).length =
      (pre ++ row bodies).length := by simp [bodies]
  have enter (fuel : Nat) : hookEnds (pre ++ row bodies).length (fuel + 1)
      program.length (pre ++ row bodies ++ [close]) =
      hookEnds (pre ++ row bodies).length fuel pre.length (pre ++ row bodies ++ [close]) := by
    have opens := hookEnds_open program (row bodies ++ [close]) number
      (pre ++ row bodies).length fuel
    rwa [← append_assoc, ← isPre] at opens
  rw [Reading.look_bind] at reads
  split at reads
  · rename_i paren
    rw [Reading.step_bind] at reads
    refine Ends.congr ?_ (closing_paren _ paren _ _ _)
    rw [index] at linked ⊢
    cases tree with
    | some tree =>
      cases reads
      have hooked := rows.hookEnds_settles .opClose (.number number) nofun
        pre rfl
      refine Ends.ok ⟨⟨?_, ?_⟩, rfl⟩ (hooking_settles _ _ linked (hooked.succ rfl enter))
      · exact congrArg _ (treeNullable tree rfl)
      · simp [isPre, Regex.code]
    | none =>
      cases reads
      have never := rows.hookEnds_never .opClose (.number number) pre rfl
      exact hooking_never _ _ linked (never.succ rfl enter)
  · rename_i noParen
    cases reads
    exact Ends.failed (closing_noParen _ noParen _ _ _)

end

theorem endsInner_readGroup (fuel : Nat) : EndsInner (readGroup fuel) := by
  induction fuel with
  | zero =>
    intro s program outcome _ _ reads
    cases reads
  | succ fuel endsInner =>
    intro s program outcome parentheses paren reads
    rw [readGroup, Reading.look_bind, Reading.step_bind] at reads
    refine (Ends.bind reads (fun o here => readBranch_ends endsInner
      (readGroup_takes fuel) _ (le_add_left _ _) here) ?_).succ rfl
      (expr_succ program parentheses paren)
    rintro first t ⟨node, branchnullable⟩ _ here ⟨rfl, nullable, body, rfl, isBody⟩ rest
    have before := readBranch_keeps (readGroup_takes fuel) fuel _ first t here
    let number := s.fNofParentheses
    let pre := program ++ [instr .opOpen (.number number) 1]
    have opens : Settles (fun fuel => Program.setNextOfEnd fuel
        (program ++ [instr .opOpen (.number number) 0] ++ opening :: body)
        program.length
        (program ++ [instr .opOpen (.number number) 0]).length)
        (pre ++ opening :: body) := by
      refine link_from program (opening :: body) .opOpen (.number number) 1 ?_ .refl ?_ ?_
      · simp
      · simp
      · simp [pre]
    refine Ends.after (setNextOfEnd_settles t opens) ?_
    refine Ends.bind rest (fun o here => readBranches_ends endsInner
      (readGroup_takes fuel) pre isBody (open_leads rfl) false nullable
      (le_trans (le_add_left _ _) before.parentheses) here) ?_
    rintro tree u isnullable after _ compiled rest
    exact closeGroup_ends rfl rest compiled

theorem expr_start (pat : Bytes) (fuel : Nat) :
    expr (fuel + 1) false (RECompiler.start pat) =
      (branch fuel >>= fun value => branches fuel value.1 value.2 >>=
        fun isnullable => closing fuel value.1 false 0 isnullable)
        ⟨{ (RECompiler.start pat).input with fNofParentheses := 1 }, []⟩ := rfl

theorem closeExpr_ends {tree : Option Branches} {after : Program}
    {u : PatternInput} {isnullable : Bool} {outcome : Except Stop (Branches × PatternInput)}
    (reads : (match tree with
        | some body => pure body
        | none => Reading.stop .endlessChain : Reading Branches) u =
      some outcome) (compiled : CompiledBranches [] false tree isnullable after) :
    Ends (fun fuel => closing fuel 0 false 0 isnullable ⟨u, after⟩) outcome
      (fun body _ after => after = body.program) := by
  rcases compiled with ⟨_, front, last, rfl, rows⟩
  have linked := closeRow_settles [] (fun _ => .refl) front last [instr .opEnd (.number 0) 0]
  have index : ([] ++ row front ++ opening :: last).length =
      ([] ++ row (front ++ [last])).length := by simp
  have unroll (fuel : Nat) : closing fuel 0 false 0 isnullable
      ⟨u, [] ++ row front ++ opening :: last⟩ =
      hooking fuel 0 ([] ++ row front ++ opening :: last).length isnullable
        ⟨u, [] ++ row front ++ opening :: last ++ [instr .opEnd (.number 0) 0]⟩ := rfl
  refine Ends.congr ?_ unroll
  rw [index] at linked ⊢
  cases tree with
  | some tree =>
    cases reads
    exact Ends.ok rfl (hooking_settles _ _ linked
      (rows.hookEnds_settles .opEnd (.number 0) nofun [] rfl))
  | none =>
    cases reads
    exact hooking_never _ _ linked (rows.hookEnds_never .opEnd (.number 0) [] rfl)

/-- The compiler goes as the reader does, and emits the tree's program. -/
theorem readExpr_ends {pat : Bytes} {bound : Nat} {outcome : Except Stop (Branches × PatternInput)}
    (reads : readExpr bound (RECompiler.start pat).input = some outcome) :
    Ends (fun fuel => expr fuel false (RECompiler.start pat)) outcome
      (fun body _ after => after = body.program) := by
  have endsInner := endsInner_readGroup bound
  have takes := readGroup_takes bound
  rw [readExpr, Reading.step_bind] at reads
  refine (Ends.bind reads (fun o here => readBranch_ends endsInner takes _
    (le_refl 1) here) ?_).succ rfl (expr_start pat)
  rintro first t ⟨node, branchnullable⟩ _ here ⟨rfl, nullable, body, rfl, isBody⟩ rest
  have before := readBranch_keeps takes bound _ first t here
  refine Ends.bind rest (fun o here => readBranches_ends endsInner takes []
    isBody (fun _ => .refl) false nullable before.parentheses here) ?_
  rintro tree u isnullable after _ compiled rest
  exact closeExpr_ends rest compiled

end Coast.Compile
