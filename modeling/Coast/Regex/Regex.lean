import Coast.Regex.Program

/-!
# Regular expressions and the programs they stand for

The syntax trees of the patterns, and the program fragment of every tree.
The last node of a fragment leads to the code behind it; the offset of that
node is a parameter, and zero while nothing is behind it.
-/

namespace Coast

inductive ClosureOperator where
  | question
  | star
  | plus
  deriving DecidableEq

/-- What matches without a closure around it. -/
inductive Terminal where
  | bol
  | eol
  | any
  | bow (opdata : Int)
  | backref (number : Nat)
  | atom (text : Bytes)
  | anyOf (set : REBitSet)
  deriving DecidableEq

namespace Terminal

def opcode : Terminal → Opcode
  | bol => .opBol
  | eol => .opEol
  | any => .opAny
  | bow _ => .opBow
  | backref _ => .opBackref
  | atom _ => .opAtom
  | anyOf _ => .opAnyOf

def opdata : Terminal → OpData
  | bow opdata => .number opdata
  | backref number => .number number
  | atom text => .text text
  | anyOf set => .set set
  | _ => .number 0

/-- Whether the compiler takes a terminal for one that can match without
taking a character. -/
def nullable : Terminal → Bool
  | bol | eol | bow _ | backref _ => true
  | any | atom _ | anyOf _ => false

end Terminal

mutual

/-- A piece or a sequence of pieces.  A counted repetition is its copies. -/
inductive Regex where
  | terminal (t : Terminal)
  | group (number : Nat) (body : Branches)
  | closure (operator : ClosureOperator) (isGreedy : Bool) (operand : Regex)
  | nothing
  | cat (first rest : Regex)

inductive Branches where
  | one (branch : Regex)
  | more (branch : Regex) (rest : Branches)

end

def instr (opcode : Opcode) (opdata : OpData) (next : Int) : Node :=
  ⟨some opcode, opdata, some next⟩

namespace ClosureOperator

def reluctant : ClosureOperator → Opcode
  | question => .opReluctantMaybe
  | star => .opReluctantStar
  | plus => .opReluctantPlus

/-- The fragment of a greedy operator.  The fragment of the operand is given
for every offset of its last node. -/
def greedyCode (operator : ClosureOperator) (operand : Int → Program) (next : Int) : Program :=
  let size := ((operand 0).length : Int)
  match operator with
  | question =>
    instr .opBranch (.number 0) (size + 1) :: operand 2 ++
      [instr .opBranch (.number 0) 1, instr .opNothing (.number 0) next]
  | star =>
    instr .opBranch (.number 0) (size + 3) :: operand 1 ++
      [instr .opBranch (.number 0) 1, instr .opGoto (.number 0) (-(size + 2)),
        instr .opBranch (.number 0) 1, instr .opNothing (.number 0) next]
  | plus =>
    operand 1 ++ [instr .opBranch (.number 0) 2, instr .opGoto (.number 0) (-(size + 1)),
        instr .opBranch (.number 0) 1, instr .opNothing (.number 0) next]

/-- The fragment of a reluctant operator, whose node leads behind the fragment
from the beginning. -/
def reluctantCode (operator : ClosureOperator) (operand : Int → Program) : Program :=
  instr operator.reluctant (.number 0) ((operand 0).length + 2) ::
    operand 1 ++ [instr .opEnd (.number 0) 0]

def overhead : ClosureOperator → Nat
  | question => 3
  | star => 5
  | plus => 4

end ClosureOperator

mutual

/-- The fragment of a tree, with the offset of its last node. -/
def Regex.code : Regex → Int → Program
  | .terminal t, next => [instr t.opcode t.opdata next]
  | .group number body, next =>
    instr .opOpen (.number number) 1 :: body.code ++ [instr .opClose (.number number) next]
  | .closure operator isGreedy operand, next =>
    if isGreedy then operator.greedyCode operand.code next
    else operator.reluctantCode operand.code
  | .nothing, next => [instr .opNothing (.number 0) next]
  | .cat first rest, next => first.code 1 ++ rest.code next

/-- The fragment of branches, whose ends all lead behind the fragment. -/
def Branches.code : Branches → Program
  | .one branch =>
    instr .opBranch (.number 0) ((branch.code 0).length + 1) :: branch.code 1
  | .more branch rest =>
    instr .opBranch (.number 0) ((branch.code 0).length + 1) ::
      branch.code (rest.code.length + 1) ++ rest.code

end

mutual

def Regex.size : Regex → Nat
  | .terminal _ => 1
  | .group _ body => body.size + 2
  | .closure operator isGreedy operand =>
    operand.size + if isGreedy then operator.overhead else 2
  | .nothing => 1
  | .cat first rest => first.size + rest.size

def Branches.size : Branches → Nat
  | .one branch => branch.size + 1
  | .more branch rest => branch.size + 1 + rest.size

end

mutual

@[simp]
theorem Regex.length_code : ∀ (r : Regex) (next : Int), (r.code next).length = r.size
  | .terminal _, _ => rfl
  | .group _ body, _ => by
      simp [Regex.code, Regex.size, body.length_code]
  | .closure operator isGreedy operand, _ => by
      have length := operand.length_code
      cases isGreedy with
      | true =>
        cases operator <;>
          simp [Regex.code, Regex.size, ClosureOperator.greedyCode, length,
            ClosureOperator.overhead]
      | false =>
        simp [Regex.code, Regex.size, ClosureOperator.reluctantCode, length]
  | .nothing, _ => rfl
  | .cat first rest, _ => by
      simp [Regex.code, Regex.size, first.length_code, rest.length_code]

@[simp]
theorem Branches.length_code : ∀ b : Branches, b.code.length = b.size
  | .one branch => by
      simp [Branches.code, Branches.size, branch.length_code]
  | .more branch rest => by
      simp [Branches.code, Branches.size, branch.length_code, rest.length_code]
      omega

end

theorem Regex.size_pos : ∀ r : Regex, 0 < r.size
  | .terminal _ => Nat.one_pos
  | .group _ _ => Nat.succ_pos _
  | .closure _ _ operand => Nat.add_pos_left operand.size_pos _
  | .nothing => Nat.one_pos
  | .cat first _ => Nat.add_pos_left first.size_pos _

def Branches.program (b : Branches) : Program := b.code ++ [instr .opEnd (.number 0) 0]

mutual

/-- Whether the compiler takes a tree for one that can match without taking
a character. -/
def Regex.nullable : Regex → Bool
  | .terminal t => t.nullable
  | .group _ body => body.nullable
  | .closure .plus _ operand => operand.nullable
  | .closure _ _ _ => true
  | .nothing => true
  | .cat first rest => first.nullable && rest.nullable

def Branches.nullable : Branches → Bool
  | .one branch => branch.nullable
  | .more branch rest => branch.nullable || rest.nullable

end

namespace Regex

/-- Whether a fragment ends with a reluctant operator, whose end leads
nowhere. -/
def endsReluctant : Regex → Bool
  | closure _ isGreedy _ => !isGreedy
  | cat _ rest => rest.endsReluctant
  | _ => false

theorem code_cat (first rest : Regex) (next : Int) :
    (cat first rest).code next = first.code 1 ++ rest.code next := rfl

def copies (r : Regex) : Nat → Regex → Regex
  | 0, last => last
  | n + 1, last => cat r (copies r n last)

def copiesCode (r : Regex) (n : Nat) : Program := (List.replicate n (r.code 1)).flatten

theorem copiesCode_succ (r : Regex) (n : Nat) :
    r.copiesCode (n + 1) = r.code 1 ++ r.copiesCode n := rfl

theorem copiesCode_add (r : Regex) (m n : Nat) :
    r.copiesCode (m + n) = r.copiesCode m ++ r.copiesCode n := by
  rw [copiesCode, List.replicate_add, List.flatten_append]
  rfl

theorem nullable_copies {r : Regex} (last : Regex) (advances : r.nullable = false) (n : Nat) :
    (r.copies n last).nullable = (n = 0 && last.nullable) := by
  cases n with
  | zero => simp [copies]
  | succ n => simp [copies, nullable, advances]

theorem nullable_copies_self {r : Regex} (n : Nat) : (r.copies n r).nullable = r.nullable := by
  induction n with
  | zero => rfl
  | succ n ih =>
    rw [copies, nullable, ih, Bool.and_self]

/-- Copies of an operand are its code, one after the other. -/
theorem code_copies (r last : Regex) (n : Nat) (next : Int) :
    (r.copies n last).code next = r.copiesCode n ++ last.code next := by
  induction n with
  | zero => rfl
  | succ n ih =>
    rw [copies, code, ih, copiesCode_succ, List.append_assoc]

end Regex

end Coast
