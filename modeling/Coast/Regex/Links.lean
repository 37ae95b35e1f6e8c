import Coast.Library.Fuel
import Coast.Regex.Regex
import Mathlib.Data.List.GetD

/-!
# Chains in a program

Where the chain of a fragment leads, and what `setNextOfEnd` does to it.
-/

namespace Coast

open Fuel Program List

namespace Program

theorem node_append_right (pre part : Program) (i : Nat) :
    node (pre ++ part) (pre.length + i) = part.node i := by
  rw [node, node, getD_append_right _ _ _ _ (Nat.le_add_right _ _), Nat.add_sub_cancel_left]

theorem setNext_append (pre post : Program) (opcode : Opcode)
    (opdata : OpData) (before after : Int) :
    setNext (pre ++ instr opcode opdata before :: post) pre.length after =
      pre ++ instr opcode opdata after :: post := by
  have long : pre.length + 1 - (pre ++ instr opcode opdata before :: post).length = 0 := by
    simp only [length_append, length_cons]
    omega
  rw [setNext, long, replicate_zero, append_nil, modify_eq_set_getElem?]
  simp [instr]

theorem setNext_length (program : Program) (value : Int) :
    program.setNext program.length value = program ++ [⟨none, .null, some value⟩] := by
  rw [setNext, Nat.add_sub_cancel_left, modify_eq_set_getElem?]
  simp [Node.null]

theorem next_length (program : Program) : program.next program.length = 0 := by
  rw [next, node, getD_eq_default _ _ (Nat.le_refl _)]
  rfl

def chainNext (program : Program) (i : Nat) : Option Nat :=
  if program.next i = 0 then none else some (i + program.next i).toNat

theorem chainNext_node (front post : Program) {n : Node} {offset : Int} {j : Nat}
    (next : n.next = some offset) (more : offset ≠ 0) (distance : front.length + offset = j) :
    chainNext (front ++ n :: post) front.length = some j := by
  have here := node_append_right front (n :: post) 0
  rw [Nat.add_zero] at here
  have offsetHere : Program.next (front ++ n :: post) front.length = offset := by
    rw [Program.next, here]
    exact congrArg (Option.getD · 0) next
  rw [chainNext, offsetHere, if_neg more, distance, Int.toNat_natCast]

theorem chainEnd_eq_walk (program : Program) (fuel i : Nat) :
    program.chainEnd fuel i = walk program.chainNext fuel i := by
  induction fuel generalizing i with
  | zero => rfl
  | succ fuel ih =>
    rw [chainEnd, walk, chainNext]
    by_cases last : program.next i = 0
    · rw [if_pos last, if_pos last]
    · rw [if_neg last, if_neg last]
      exact ih _

theorem setNextOfEnd_settles {program : Program} {i last : Nat}
    (pointTo : Nat) (leads : Leads program.chainNext i last) (ends : program.next last = 0) :
    Settles (fun fuel => program.setNextOfEnd fuel i pointTo)
      (program.setNext last (pointTo - last : Int)) := by
  have stops : program.chainNext last = none := if_pos ends
  refine Settles.map _ ((walk_settles leads stops).congr fun fuel => ?_)
  exact chainEnd_eq_walk program fuel i

theorem setNextOfEnd_never {program : Program} {i first second : Nat}
    (pointTo : Nat) (leads : Leads program.chainNext i first)
    (goesOn : program.chainNext first = some second) (back : Leads program.chainNext second first) :
    Never (fun fuel => program.setNextOfEnd fuel i pointTo) := by
  intro fuel
  have never := walk_never leads goesOn back fuel
  show (program.chainEnd fuel i).map _ = none
  rw [chainEnd_eq_walk]
  exact Option.map_eq_none_iff.mpr never

/-- Wherever the part stands, its chain leads from one index to another. -/
def Within (part : Program) (i j : Nat) : Prop :=
  ∀ pre post : Program, Leads (chainNext (pre ++ part ++ post)) (pre.length + i) (pre.length + j)

namespace Within

variable {part : Program} {i j k : Nat}

theorem refl (part : Program) (i : Nat) : Within part i i := fun _ _ => .refl

theorem trans (first : Within part i j) (second : Within part j k) : Within part i k :=
  fun pre post => (first pre post).trans (second pre post)

theorem node {opcode : Opcode} {opdata : OpData} {offset : Int}
    (at_ : part[i]? = some (instr opcode opdata offset)) (more : offset ≠ 0)
    (leads : (i + offset : Int) = j) : Within part i j := by
  intro pre post
  obtain ⟨inside, here⟩ := List.getElem?_eq_some_iff.mp at_
  have shape : pre ++ part ++ post = (pre ++ part.take i) ++
      instr opcode opdata offset :: (part.drop (i + 1) ++ post) := by
    rw [← here, append_assoc, append_assoc, ← cons_append, getElem_cons_drop,
      ← append_assoc (part.take i), take_append_drop]
  have length : (pre ++ part.take i).length = pre.length + i := by
    rw [length_append, length_take_of_le (Nat.le_of_lt inside)]
  rw [shape, ← length]
  refine Leads.single (chainNext_node _ _ rfl more ?_)
  omega

variable (within : Within part i j)
include within

theorem context (front back : Program) :
    Within (front ++ part ++ back) (front.length + i) (front.length + j) := by
  intro pre post
  have there := within (pre ++ front) (back ++ post)
  rw [length_append, Nat.add_assoc, Nat.add_assoc] at there
  simpa only [append_assoc] using there

theorem left (back : Program) : Within (part ++ back) i j := by
  have there := within.context [] back
  simpa using there

theorem right (front : Program) : Within (front ++ part) (front.length + i) (front.length + j) := by
  have there := within.context front []
  simpa using there

theorem cons (first : Node) : Within (first :: part) (i + 1) (j + 1) := by
  have there := within.right [first]
  simpa [Nat.add_comm] using there

end Within

end Program

/-! ## The chain of a fragment -/

namespace Regex

/-- A fragment that does not end with a reluctant operator ends with the node
whose offset is the parameter. -/
theorem code_snoc : ∀ {r : Regex}, r.endsReluctant = false →
    ∃ front opcode opdata, ∀ next, r.code next = front ++ [instr opcode opdata next]
  | .terminal t, _ => ⟨[], t.opcode, t.opdata, fun _ => rfl⟩
  | .group _ _, _ => ⟨_, .opClose, _, fun _ => rfl⟩
  | .closure operator true operand, _ => by
      cases operator with
      | question =>
        refine ⟨instr .opBranch (.number 0) (operand.size + 1) ::
          operand.code 2 ++ [instr .opBranch (.number 0) 1],
          .opNothing, .number 0, fun next => ?_⟩
        simp [code, ClosureOperator.greedyCode]
      | star =>
        refine ⟨instr .opBranch (.number 0) (operand.size + 3) ::
          operand.code 1 ++ [instr .opBranch (.number 0) 1,
            instr .opGoto (.number 0) (-(operand.size + 2)),
            instr .opBranch (.number 0) 1],
          .opNothing, .number 0, fun next => ?_⟩
        simp [code, ClosureOperator.greedyCode]
      | plus =>
        refine ⟨operand.code 1 ++ [instr .opBranch (.number 0) 2,
            instr .opGoto (.number 0) (-(operand.size + 1)),
            instr .opBranch (.number 0) 1],
          .opNothing, .number 0, fun next => ?_⟩
        simp [code, ClosureOperator.greedyCode]
  | .nothing, _ => ⟨[], .opNothing, .number 0, fun _ => rfl⟩
  | .cat first rest, greedy => by
      obtain ⟨front, opcode, opdata, restCode⟩ := code_snoc (r := rest) greedy
      refine ⟨first.code 1 ++ front, opcode, opdata, fun next => ?_⟩
      rw [code, restCode, append_assoc]

theorem code_reluctant : ∀ {r : Regex}, r.endsReluctant = true → ∀ link, r.code link = r.code 0
  | .closure _ false _, _, _ => rfl
  | .cat first rest, reluctant, link => by
      rw [code, code, code_reluctant (r := rest) reluctant link]

def lastIndex (r : Regex) : Nat := if r.endsReluctant then r.size else r.size - 1

theorem through_of_within {r : Regex} (within : Within (r.code 1) 0 r.lastIndex) :
    Within (r.code 1) 0 r.size := by
  cases reluctant : r.endsReluctant with
  | true => simpa [lastIndex, reluctant] using within
  | false =>
    obtain ⟨front, opcode, opdata, code⟩ := code_snoc reluctant
    have size : r.size = front.length + 1 := by
      rw [← length_code r 1, code, length_append, length_singleton]
    have last : r.lastIndex = front.length := by
      simp [lastIndex, reluctant, size]
    refine within.trans ?_
    rw [last, size, code]
    exact Within.node getElem?_concat_length Int.one_ne_zero rfl

end Regex

private theorem lastBranch_within (front : Program) (link : Int) :
    Within (front ++ [instr .opBranch (.number 0) 1,
      instr .opNothing (.number 0) link]) front.length (front.length + 1) := by
  have last : Within [instr .opBranch (.number 0) 1, instr .opNothing (.number 0) link] 0 1 :=
    Within.node rfl Int.one_ne_zero rfl
  exact last.right front

mutual

/-- The links of a tree's code stay within it. -/
theorem Regex.code_within : ∀ (r : Regex) (link : Int), Within (r.code link) 0 r.lastIndex
  | .terminal _, _ => Within.refl _ _
  | .group number body, link => by
      have opening : Within (Regex.code (.group number body) link) 0 1 :=
        Within.node rfl Int.one_ne_zero rfl
      have inside := (body.code_within.cons
        (instr .opOpen (.number number) 1)).left [instr .opClose (.number number) link]
      exact opening.trans inside
  | .closure .question true operand, link => by
      have option : Within (Regex.code (.closure .question true operand) link)
          0 (operand.size + 1) :=
        Within.node rfl (by simp; omega) (by simp)
      have last := lastBranch_within
        (instr .opBranch (.number 0) (operand.size + 1) :: operand.code 2)
        link
      refine option.trans ?_
      simpa [Regex.code, ClosureOperator.greedyCode, Regex.lastIndex,
        Regex.endsReluctant, Regex.size, ClosureOperator.overhead] using last
  | .closure .star true operand, link => by
      have option : Within (Regex.code (.closure .star true operand) link)
          0 (operand.size + 3) :=
        Within.node rfl (by simp; omega) (by simp)
      have last := lastBranch_within
        (instr .opBranch (.number 0) (operand.size + 3) :: operand.code 1 ++
          [instr .opBranch (.number 0) 1, instr .opGoto (.number 0) (-(operand.size + 2))]) link
      refine option.trans ?_
      simpa [Regex.code, ClosureOperator.greedyCode, Regex.lastIndex,
        Regex.endsReluctant, Regex.size, ClosureOperator.overhead] using last
  | .closure .plus true operand, link => by
      have through := (Regex.through_of_within (operand.code_within 1)).left
        [instr .opBranch (.number 0) 2, instr .opGoto (.number 0) (-(operand.size + 1)),
          instr .opBranch (.number 0) 1, instr .opNothing (.number 0) link]
      have again : Within [instr .opBranch (.number 0) 2,
          instr .opGoto (.number 0) (-(operand.size + 1)),
          instr .opBranch (.number 0) 1,
          instr .opNothing (.number 0) link] 0 2 :=
        Within.node rfl (by decide) rfl
      have option := again.right (operand.code 1)
      have last := lastBranch_within (operand.code 1 ++
        [instr .opBranch (.number 0) 2, instr .opGoto (.number 0) (-(operand.size + 1))]) link
      simp only [Regex.length_code, Nat.add_zero] at option
      have all := (through.trans option).trans (by simpa using last)
      simpa [Regex.code, ClosureOperator.greedyCode, Regex.lastIndex,
        Regex.endsReluctant, Regex.size, ClosureOperator.overhead] using all
  | .closure operator false operand, _ =>
    Within.node rfl (by simp; omega) (by simp [Regex.lastIndex, Regex.endsReluctant, Regex.size])
  | .nothing, _ => Within.refl _ _
  | .cat first rest, link => by
      have through := (Regex.through_of_within
        (first.code_within 1)).left (rest.code link)
      have more := (rest.code_within link).right (first.code 1)
      rw [Regex.length_code, Nat.add_zero] at more
      have last : (Regex.cat first rest).lastIndex = first.size + rest.lastIndex := by
        have pos := rest.size_pos
        rw [Regex.lastIndex, Regex.lastIndex, Regex.endsReluctant, Regex.size]
        split
        · rfl
        · omega
      rw [last]
      exact through.trans more

theorem Branches.code_within : ∀ b : Branches, Within b.code 0 b.size
  | .one branch => Within.node rfl (by simp; omega) (by simp [Branches.size])
  | .more branch rest => by
      have first : Within (Branches.code (.more branch rest)) 0
          (branch.size + 1) :=
        Within.node rfl (by simp; omega) (by simp)
      have more := rest.code_within.right
        (instr .opBranch (.number 0) ((branch.code 0).length + 1) ::
          branch.code (rest.code.length + 1))
      refine first.trans ?_
      simpa [Branches.code, Branches.size] using more

end

namespace Regex

/-- The links of the code stay inside of it. -/
theorem code_through (r : Regex) : Within (r.code 1) 0 r.size := through_of_within (r.code_within 1)

end Regex

end Coast
