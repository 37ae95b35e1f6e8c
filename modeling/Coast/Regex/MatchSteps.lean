import Coast.Library.Fuel
import Coast.Regex.RE
import Coast.Regex.Regex

/-!
# Steps of the engine

What a run does at a node, in terms of what it does at the nodes it goes on
to.  A run is total when it returns a result with a condition.
-/

namespace Coast

open Fuel

namespace Match

variable {α β : Type}

/-- A function returns, with a condition on the result and the state. -/
def Yields (m : Nat → Match α) (st : MatchState) (Post : α → MatchState → Prop) : Prop :=
  ∃ a after, Post a after ∧ Settles (fun fuel => m fuel st) (.ok a, after)

private def goOn (f : Nat → α → Match β) (fuel : Nat) :
    Except MatchExit α × MatchState → Option (Except MatchExit β × MatchState)
  | (.error exit, st) => some (.error exit, st)
  | (.ok a, st) => f fuel a st

private theorem bind_eq (m : Nat → Match α) (f : Nat → α → Match β) (st : MatchState) (fuel : Nat) :
    (m fuel >>= f fuel) st = (m fuel st).bind (goOn f fuel) := rfl

namespace Yields

variable {m : Nat → Match α} {st : MatchState} {Post : α → MatchState → Prop}

theorem value {a : α} (post : Post a st) : Yields (fun _ => pure a) st Post :=
  ⟨a, st, post, .const _⟩

theorem congr {f g : Nat → Match α} (returns : Yields g st Post)
    (same : ∀ fuel, f fuel = g fuel) : Yields f st Post := by
  obtain rfl : f = g := funext same
  exact returns

theorem succ {f g : Nat → Match α} (returns : Yields g st Post)
    (zero : f 0 = .endless) (unroll : ∀ fuel, f (fuel + 1) = g fuel) :
    Yields f st Post := by
  rcases returns with ⟨a, after, post, settles⟩
  refine ⟨a, after, post, settles.succ ?_ fun fuel => ?_⟩
  · exact congrFun zero st
  · exact congrFun (unroll fuel) st

theorem imp {Post' : α → MatchState → Prop} (returns : Yields m st Post)
    (weaker : ∀ a after, Post a after → Post' a after) :
    Yields m st Post' := by
  rcases returns with ⟨a, after, post, settles⟩
  exact ⟨a, after, weaker a after post, settles⟩

variable {Post' : β → MatchState → Prop}

theorem bind {f : Nat → α → Match β} (first : Yields m st Post)
    (rest : ∀ a after, Post a after → Yields (fun fuel => f fuel a) after Post') :
    Yields (fun fuel => m fuel >>= f fuel) st Post' := by
  rcases first with ⟨a, after, post, settles⟩
  rcases rest a after post with ⟨b, last, post', later⟩
  exact ⟨b, last, post', (settles.bind (g := goOn f) later).congr (bind_eq m f st)⟩

theorem bindSucc {f : Nat → α → Match β} {g : Nat → Match β} (first : Yields m st Post)
    (rest : ∀ a after, Post a after → Yields (fun fuel => f fuel a) after Post')
    (zero : g 0 = .endless) (unroll : ∀ fuel, g (fuel + 1) = m fuel >>= f fuel) :
    Yields g st Post' :=
  (first.bind rest).succ zero unroll

theorem modify {f : MatchState → MatchState} {g : Nat → Match β} (rest : Yields g (f st) Post') :
    Yields (fun fuel => Match.modify f >>= fun _ => g fuel) st Post' := rest

theorem read {f : MatchState → Except MatchExit α} {g : Nat → α → Match β}
    {a : α} (looks : f st = .ok a) (rest : Yields (fun fuel => g fuel a) st Post') :
    Yields (fun fuel => Match.read f >>= g fuel) st Post' := by
  have looked : Yields (fun _ => Match.read f) st fun b after => b = a ∧ after = st := by
    refine ⟨a, st, ⟨rfl, rfl⟩, (Settles.const _).congr fun _ => ?_⟩
    exact congrArg (fun result => some (result, st)) looks
  refine looked.bind ?_
  rintro _ _ ⟨rfl, rfl⟩
  exact rest

end Yields

end Match

open Match

/-- Every offset of a program is one that `short` keeps. -/
def Program.Fits (program : Program) : Prop :=
  ∀ node ∈ program, short (node.next.getD 0) = node.next.getD 0

instance (program : Program) : Decidable program.Fits :=
  inferInstanceAs (Decidable (∀ node ∈ program, _))

def Placed (program : Program) (p : Nat) (code : Program) : Prop :=
  ∀ i, i < code.length → program[p + i]? = code[i]?

namespace Placed

variable {program one other : Program} {p : Nat} {n : Node}

theorem head (placed : Placed program p (n :: one)) : program[p]? = some n :=
  placed 0 (Nat.succ_pos _)

theorem tail (placed : Placed program p (n :: one)) : Placed program (p + 1) one := by
  intro i inside
  have there := placed (i + 1) (Nat.succ_lt_succ inside)
  rwa [Nat.add_comm i, ← Nat.add_assoc, Nat.add_comm 1 i] at there

theorem left (placed : Placed program p (one ++ other)) : Placed program p one := by
  intro i inside
  rw [placed i (by rw [List.length_append]; omega), List.getElem?_append_left inside]

theorem right (placed : Placed program p (one ++ other)) :
    Placed program (p + one.length) other := by
  intro i inside
  rw [Nat.add_assoc, placed (one.length + i) (by
    rw [List.length_append]; omega), List.getElem?_append_right (by omega),
    Nat.add_sub_cancel_left]

theorem self (program : Program) : Placed program 0 program := by
  intro i _
  rw [Nat.zero_add]

section

variable {operand : Regex} {offset : Int}

theorem question (placed : Placed program p (Regex.code (.closure .question true operand) offset)) :
    Placed program p [instr .opBranch (.number 0) (operand.size + 1)] ∧
      Placed program (p + 1) (operand.code 2) ∧
      Placed program (p + 1 + operand.size)
        [instr .opBranch (.number 0) 1, instr .opNothing (.number 0) offset] := by
  have code : Regex.code (.closure .question true operand) offset =
      [instr .opBranch (.number 0) (operand.size + 1)] ++ (operand.code 2 ++
        [instr .opBranch (.number 0) 1, instr .opNothing (.number 0) offset]) := by
    simp [Regex.code, ClosureOperator.greedyCode]
  rw [code] at placed
  have inner : Placed program (p + 1) (operand.code 2 ++ _) := placed.right
  have behind := inner.right
  rw [Regex.length_code] at behind
  exact ⟨placed.left, inner.left, behind⟩

theorem star (placed : Placed program p (Regex.code (.closure .star true operand) offset)) :
    Placed program p [instr .opBranch (.number 0) (operand.size + 3)] ∧
      Placed program (p + 1) (operand.code 1) ∧
      Placed program (p + 1 + operand.size)
        [instr .opBranch (.number 0) 1, instr .opGoto (.number 0) (-(operand.size + 2)),
          instr .opBranch (.number 0) 1, instr .opNothing (.number 0) offset] := by
  have code : Regex.code (.closure .star true operand) offset =
      [instr .opBranch (.number 0) (operand.size + 3)] ++ (operand.code 1 ++
        [instr .opBranch (.number 0) 1, instr .opGoto (.number 0) (-(operand.size + 2)),
          instr .opBranch (.number 0) 1, instr .opNothing (.number 0) offset]) := by
    simp [Regex.code, ClosureOperator.greedyCode]
  rw [code] at placed
  have inner : Placed program (p + 1) (operand.code 1 ++ _) := placed.right
  have behind := inner.right
  rw [Regex.length_code] at behind
  exact ⟨placed.left, inner.left, behind⟩

theorem plus (placed : Placed program p (Regex.code (.closure .plus true operand) offset)) :
    Placed program p (operand.code 1) ∧ Placed program (p + operand.size)
        [instr .opBranch (.number 0) 2, instr .opGoto (.number 0) (-(operand.size + 1)),
          instr .opBranch (.number 0) 1, instr .opNothing (.number 0) offset] := by
  have code : Regex.code (.closure .plus true operand) offset = operand.code 1 ++
      [instr .opBranch (.number 0) 2, instr .opGoto (.number 0) (-(operand.size + 1)),
        instr .opBranch (.number 0) 1, instr .opNothing (.number 0) offset] := by
    simp [Regex.code, ClosureOperator.greedyCode]
  rw [code] at placed
  have behind := placed.right
  rw [Regex.length_code] at behind
  exact ⟨placed.left, behind⟩

end

end Placed

namespace RE

variable {re : RE}

/-- The node at an index, whose offset `short` keeps. -/
structure Has (re : RE) (p : Nat) (opcode : Opcode) (opdata : OpData) (offset : Int) : Prop where
  here : re.fProgram[p]? = some (instr opcode opdata offset)
  short : short offset = offset

theorem has_of_fits (fits : re.fProgram.Fits) {p : Nat} {opcode : Opcode}
    {opdata : OpData} {offset : Int} (here : re.fProgram[p]? = some (instr opcode opdata offset)) :
    re.Has p opcode opdata offset :=
  ⟨here, fits _ (List.mem_of_getElem? here)⟩

theorem nodeAt_cast (re : RE) (p : Nat) : re.nodeAt p = re.fProgram[p]? := by
  rw [nodeAt, Int.toNat_natCast]

/-- From a node on, for every end of the loop from `bound` on. -/
def Runs (re : RE) (bound node : Int) (idx : Nat) (st : MatchState)
    (Post : Option Nat → MatchState → Prop) : Prop :=
  ∀ last, bound ≤ last → Yields (fun fuel => re.nodes fuel node last idx) st Post

variable {Post : Option Nat → MatchState → Prop}

variable {node : Int} {idx : Nat} {st : MatchState}

theorem Runs.imp {bound : Int}
    {Post' : Option Nat → MatchState → Prop}
    (runs : re.Runs bound node idx st Post) (weaker : ∀ r after, Post r after → Post' r after) :
    re.Runs bound node idx st Post' :=
  fun last inside => (runs last inside).imp weaker

theorem Runs.call {bound : Int}
    (runs : re.Runs bound node idx st Post) (inside : bound ≤ re.fProgram.length) :
    Yields (fun fuel => re.matchNodes fuel node (-1) idx) st Post :=
  (runs _ inside).succ (by rw [matchNodes]) fun fuel => by rw [matchNodes]; rfl

theorem Runs.callUpTo {last : Int}
    (runs : re.Runs last node idx st Post) (some_ : 0 ≤ last) :
    Yields (fun fuel => re.matchNodes fuel node last idx) st Post := by
  refine (runs last (Int.le_refl _)).succ (by rw [matchNodes]) fun fuel => ?_
  rw [matchNodes, if_neg (Int.not_lt.mpr some_)]

end RE

def Opcode.consumes : Opcode → Bool
  | .opBackref | .opBol | .opEol | .opBow | .opAny | .opAtom | .opAnyOf
  | .opNothing | .opGoto => true
  | _ => false

namespace RE

/-- What a node does that is not one of the plain ones. -/
def turn (re : RE) (opcode : Opcode) (opdata : OpData) (p : Nat)
    (offset last : Int) (fuel idx : Nat) : Match (Option Nat) :=
  match opcode with
  | .opReluctantMaybe => re.reluctantMaybe fuel p (p + offset) idx
  | .opReluctantPlus => re.reluctantPlus fuel p (p + offset) idx
  | .opReluctantStar => re.reluctantStar fuel p (p + offset) idx
  | .opOpen => do
      .modify (·.pushStart opdata.asLong.toNat idx)
      match ← re.matchNodes fuel (p + offset) (-1) idx with
      | some idxNew =>
        .modify (·.setStart opdata.asLong.toNat idx)
        pure (some idxNew)
      | none =>
        .modify (·.popStart opdata.asLong.toNat)
        pure none
  | .opClose => do
      .modify (·.pushEnd opdata.asLong.toNat idx)
      match ← re.matchNodes fuel (p + offset) (-1) idx with
      | some idxNew =>
        .modify (·.setEnd opdata.asLong.toNat idx)
        pure (some idxNew)
      | none =>
        .modify (·.popEnd opdata.asLong.toNat)
        pure none
  | .opBranch => do
      if ← re.isBranch (p + offset) then re.tryBranches fuel p idx
      else re.nodes fuel (p + 1) last idx
  | .opEnd => pure (some idx)
  | opcode => do
      match ← .read (re.consume opcode opdata idx) with
      | some idx => re.nodes fuel (p + offset) last idx
      | none => pure none

section

variable {re : RE} {p : Nat} {opcode : Opcode} {opdata : OpData}
  {offset bound : Int} {idx : Nat} {st : MatchState}
  {Post : Option Nat → MatchState → Prop}

variable {last : Int}

theorem nodes_here (here : re.fProgram[p]? = some (instr opcode opdata offset))
     (before : (p : Int) < last) (fuel idx : Nat) :
    re.nodes (fuel + 1) p last idx =
      re.turn opcode opdata p (Coast.short offset) last fuel idx := by
  rw [nodes, if_pos before, nodeAt_cast, here]
  simp only [instr, Option.getD_some]
  cases opcode <;> rfl

theorem nodes_has (has : re.Has p opcode opdata offset)
    (before : (p : Int) < last) (fuel : Nat) (idx : Nat) :
    re.nodes (fuel + 1) p last idx = re.turn opcode opdata p offset last fuel idx := by
  rw [nodes_here has.here before, has.short]

theorem Runs.turn (has : re.Has p opcode opdata offset) (before : (p : Int) < bound)
    (rest : ∀ last, bound ≤ last → Yields (fun fuel =>
      re.turn opcode opdata p offset last fuel idx) st Post) :
    re.Runs bound p idx st Post := by
  intro last inside
  refine (rest last inside).succ (by rw [nodes]) fun fuel => ?_
  exact nodes_has has (Int.lt_of_lt_of_le before inside) fuel idx

theorem runs_end (has : re.Has p .opEnd opdata offset)
    (before : (p : Int) < bound) (post : Post (some idx) st) :
    re.Runs bound p idx st Post :=
  Runs.turn has before fun _ _ => Yields.value post

theorem turn_consumes (consumes : opcode.consumes = true) (fuel : Nat) :
    re.turn opcode opdata p offset last fuel idx =
      (Match.read (re.consume opcode opdata idx) >>= fun
        | some idx => re.nodes fuel (p + offset) last idx
        | none => pure none) := by
  cases opcode <;> first
    | rfl
    | cases consumes

private theorem turn_consume (consumes : opcode.consumes = true)
    {result : Option Nat} (looks : re.consume opcode opdata idx st = .ok result)
    (rest : Yields (fun fuel => match result with
      | some idx => re.nodes fuel (p + offset) last idx
      | none => pure none) st Post) :
    Yields (fun fuel => re.turn opcode opdata p offset last fuel idx) st Post := by
  simp only [turn_consumes consumes]
  exact Yields.read looks rest

theorem runs_consume (has : re.Has p opcode opdata offset)
    (consumes : opcode.consumes = true) (before : (p : Int) < bound) {idxNew : Nat}
    (matched : re.consume opcode opdata idx st = .ok (some idxNew))
    (rest : re.Runs bound (p + offset) idxNew st Post) :
    re.Runs bound p idx st Post :=
  Runs.turn has before fun last inside =>
    turn_consume consumes matched (rest last inside)

theorem runs_fail (has : re.Has p opcode opdata offset) (consumes : opcode.consumes = true)
    (before : (p : Int) < bound) (failed : re.consume opcode opdata idx st = .ok none)
    (post : Post none st) : re.Runs bound p idx st Post :=
  Runs.turn has before fun _ _ =>
    turn_consume consumes failed (Yields.value post)

section

variable (before : (p : Int) < bound) (inside : bound ≤ re.fProgram.length)

include before inside

theorem runs_open (has : re.Has p .opOpen opdata offset)
    (rest : re.Runs bound (p + offset) idx
      (st.pushStart opdata.asLong.toNat idx) fun r after =>
        Post r (if r.isSome then after.setStart opdata.asLong.toNat idx
          else after.popStart opdata.asLong.toNat)) :
    re.Runs bound p idx st Post := by
  refine Runs.turn has before fun last _ => ?_
  refine Yields.modify ((rest.call inside).bind ?_)
  rintro (_ | idxNew) after post
  · exact Yields.modify (Yields.value post)
  · exact Yields.modify (Yields.value post)

theorem runs_close (has : re.Has p .opClose opdata offset)
    (rest : re.Runs bound (p + offset) idx
      (st.pushEnd opdata.asLong.toNat idx) fun r after =>
        Post r (if r.isSome then after.setEnd opdata.asLong.toNat idx
          else after.popEnd opdata.asLong.toNat)) :
    re.Runs bound p idx st Post := by
  refine Runs.turn has before fun last _ => ?_
  refine Yields.modify ((rest.call inside).bind ?_)
  rintro (_ | idxNew) after post
  · exact Yields.modify (Yields.value post)
  · exact Yields.modify (Yields.value post)

end

def orElse (Post : Option Nat → MatchState → Prop)
    (rest : MatchState → Prop) : Option Nat → MatchState → Prop
  | some idx, after => Post (some idx) after
  | none, after => rest after

def andThen (Post : Option Nat → MatchState → Prop)
    (rest : Nat → MatchState → Prop) : Option Nat → MatchState → Prop
  | some idx, after => rest idx after
  | none, after => Post none after

section

variable {q : Nat} {target : Opcode} {targetData : OpData}
  {targetOffset : Int} (goes : (p : Int) + offset = q)
  (atTarget : re.Has q target targetData targetOffset)

include goes atTarget

private theorem isBranch_target : re.isBranch (p + offset) = pure (target = .opBranch : Bool) := by
  rw [isBranch, goes, nodeAt_cast, atTarget.here]
  simp [instr]

theorem runs_lone (before : (p : Int) < bound) (has : re.Has p .opBranch opdata offset)
    (lone : target ≠ .opBranch) (rest : re.Runs bound ((p + 1 : Nat) : Int) idx st Post) :
    re.Runs bound p idx st Post := by
  refine Runs.turn has before fun last inside => ?_
  refine (rest last inside).congr fun fuel => ?_
  rw [turn, isBranch_target goes atTarget, decide_eq_false lone]
  rfl

theorem runs_branch (before : (p : Int) < bound) (has : re.Has p .opBranch opdata offset)
    (more : target = .opBranch) (rest : Yields (fun fuel => re.tryBranches fuel p idx) st Post) :
    re.Runs bound p idx st Post := by
  refine Runs.turn has before fun last inside => ?_
  refine rest.congr fun fuel => ?_
  rw [turn, isBranch_target goes atTarget, decide_eq_true more]
  rfl

private theorem tryBranches_succ (has : re.Has p .opBranch opdata offset)
    (advances : offset ≠ 0) (fuel : Nat) :
    re.tryBranches (fuel + 1) p idx = (re.matchNodes fuel ((p + 1 : Nat) : Int) (-1) idx >>= fun
        | some idxNew => pure (some idxNew)
        | none => if target = .opBranch then re.tryBranches fuel q idx else pure none) := by
  rw [tryBranches]
  congr 1
  funext result
  cases result with
  | some idxNew => rfl
  | none =>
    have nextBranch : (instr .opBranch opdata offset).next.getD 0 = offset := rfl
    dsimp only
    rw [nodeAt_cast, has.here]
    dsimp only
    rw [nextBranch, if_neg advances, isBranch_target goes atTarget, goes]
    by_cases more : target = .opBranch
    · rw [decide_eq_true more, if_pos more]
      rfl
    · rw [decide_eq_false more, if_neg more]
      rfl

theorem tries_next (inside : bound ≤ re.fProgram.length)
    (has : re.Has p .opBranch opdata offset) (more : target = .opBranch) (advances : offset ≠ 0)
    (rest : re.Runs bound ((p + 1 : Nat) : Int) idx st
      (orElse Post fun after =>
        Yields (fun fuel => re.tryBranches fuel q idx) after Post)) :
    Yields (fun fuel => re.tryBranches fuel p idx) st Post := by
  refine Yields.bindSucc (rest.call inside) ?_ (by rw [tryBranches])
    (tryBranches_succ goes atTarget has advances)
  rintro (_ | idxNew) after post
  · simp only [if_pos more]
    exact post
  · exact Yields.value post

theorem tries_last (inside : bound ≤ re.fProgram.length)
    (has : re.Has p .opBranch opdata offset) (last : target ≠ .opBranch) (advances : offset ≠ 0)
    (rest : re.Runs bound ((p + 1 : Nat) : Int) idx st Post) :
    Yields (fun fuel => re.tryBranches fuel p idx) st Post := by
  refine Yields.bindSucc (rest.call inside) ?_ (by rw [tryBranches])
    (tryBranches_succ goes atTarget has advances)
  rintro (_ | idxNew) after post
  · simp only [if_neg last]
    exact Yields.value post
  · exact Yields.value post

end

section

variable {q : Nat} (inside : bound ≤ re.fProgram.length)

include inside

theorem maybe_returns (rest : re.Runs bound q idx st (orElse Post fun after =>
      re.Runs q ((p + 1 : Nat) : Int) idx after (andThen Post fun idx after =>
        re.Runs bound q idx after Post))) :
    Yields (fun fuel => re.reluctantMaybe fuel p q idx) st Post := by
  refine Yields.bindSucc (rest.call inside) ?_ (by rw [reluctantMaybe])
    fun fuel => by rw [reluctantMaybe]
  rintro (_ | idxNew) after post
  · refine (post.callUpTo (Int.natCast_nonneg q)).bind ?_
    rintro (_ | idxNew) after post
    · exact Yields.value post
    · exact post.call inside
  · exact Yields.value post

theorem plus_returns (rest : re.Runs q ((p + 1 : Nat) : Int) idx st
      (andThen Post fun idx after =>
        re.Runs bound q idx after (orElse Post fun after =>
          Yields (fun fuel => re.reluctantPlus fuel p q idx) after Post))) :
    Yields (fun fuel => re.reluctantPlus fuel p q idx) st Post := by
  have unroll (fuel : Nat) : re.reluctantPlus (fuel + 1) p q idx =
      (re.matchNodes fuel ((p + 1 : Nat) : Int) q idx >>= fun
        | some idx => re.matchNodes fuel q (-1) idx >>= fun
            | some idxNew => pure (some idxNew)
            | none => re.reluctantPlus fuel p q idx
        | none => pure none) := by
    rw [reluctantPlus]
    rfl
  refine Yields.bindSucc (rest.callUpTo (Int.natCast_nonneg q)) ?_ (by rw [reluctantPlus]) unroll
  rintro (_ | idxNew) after post
  · exact Yields.value post
  · refine (post.call inside).bind ?_
    rintro (_ | idxNew) after post
    · exact post
    · exact Yields.value post

theorem star_returns (rest : re.Runs bound q idx st (orElse Post fun after =>
      re.Runs q ((p + 1 : Nat) : Int) idx after (andThen Post fun idx after =>
        Yields (fun fuel => re.reluctantStar fuel p q idx) after Post))) :
    Yields (fun fuel => re.reluctantStar fuel p q idx) st Post := by
  refine Yields.bindSucc (rest.call inside) ?_ (by rw [reluctantStar])
    fun fuel => by rw [reluctantStar]
  rintro (_ | idxNew) after post
  · refine (post.callUpTo (Int.natCast_nonneg q)).bind ?_
    rintro (_ | idxNew) after post
    · exact Yields.value post
    · exact post
  · exact Yields.value post

end

def reluctantLoop (re : RE) : ClosureOperator → Nat → Int → Int → Nat → Match (Option Nat)
  | .question => re.reluctantMaybe
  | .plus => re.reluctantPlus
  | .star => re.reluctantStar

theorem runs_reluctant {operator : ClosureOperator} (before : (p : Int) < bound)
    (has : re.Has p operator.reluctant opdata offset) {q : Nat} (goes : (p : Int) + offset = q)
    (rest : Yields (fun fuel => re.reluctantLoop operator fuel p q idx) st
      Post) :
    re.Runs bound p idx st Post := by
  refine Runs.turn has before fun last _ => rest.congr fun fuel => ?_
  rw [← goes]
  cases operator <;> rfl

end

end RE

end Coast
