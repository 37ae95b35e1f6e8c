import Coast.Regex.Links
import Coast.Regex.PatternProgress

/-!
# What the generators of closures make

Every generator returns, and turns the fragment of its operand into the
fragment of the closure.
-/

namespace Coast

open Fuel List

namespace Program

theorem insertNode_append (pre part : Program) (opcode : Opcode) (opdata : OpData) :
    insertNode (pre ++ part) opcode opdata pre.length = pre ++ instr opcode opdata 0 :: part := by
  rw [insertNode, take_left, drop_left]
  rfl

section

variable {program result : Program} {i pointTo : Nat}

theorem link_from (front post : Program) (opcode : Opcode) (opdata : OpData)
    (offset : Int) (shape : program = front ++ instr opcode opdata 0 :: post)
    (leads : Leads program.chainNext i front.length) (distance : front.length + offset = pointTo)
    (linked : result = front ++ instr opcode opdata offset :: post) :
    Settles (fun fuel => setNextOfEnd fuel program i pointTo) result := by
  subst shape linked
  have ends : next (front ++ instr opcode opdata 0 :: post) front.length = 0 := by
    have here := node_append_right front (instr opcode opdata 0 :: post) 0
    rw [Nat.add_zero] at here
    rw [next, here]
    rfl
  have offsetEq : offset = (pointTo - front.length : Int) := by omega
  rw [offsetEq, ← setNext_append front post opcode opdata 0 (pointTo - front.length)]
  exact setNextOfEnd_settles pointTo leads ends

theorem link {r : Regex} (greedy : r.endsReluctant = false) (pre post : Program) (offset : Int)
    (shape : program = pre ++ r.code 0 ++ post) (first : i = pre.length)
    (distance : pre.length + r.size + offset = (pointTo : Int) + 1)
    (linked : result = pre ++ r.code offset ++ post) :
    Settles (fun fuel => setNextOfEnd fuel program i pointTo) result := by
  have leads := r.code_within 0 pre post
  obtain ⟨front, opcode, opdata, code⟩ := Regex.code_snoc greedy
  have size : r.size = front.length + 1 := by
    rw [← Regex.length_code r 0, code, length_append, length_singleton]
  have last : r.lastIndex = front.length := by
    rw [Regex.lastIndex, greedy, if_neg Bool.false_ne_true, size, Nat.add_sub_cancel]
  rw [last, Nat.add_zero, ← length_append] at leads
  refine link_from (pre ++ front) post opcode opdata offset ?_ ?_ ?_ ?_
  · simp [shape, code]
  · rw [shape, first]
    exact leads
  · rw [length_append]
    omega
  · simp [linked, code]

theorem leads_node (front post : Program) (opcode : Opcode) (opdata : OpData)
    (offset : Int) {j : Nat} (shape : program = front ++ instr opcode opdata offset :: post)
    (first : i = front.length) (more : offset ≠ 0) (distance : front.length + offset = j) :
    Leads program.chainNext i j := by
  subst shape first
  exact Leads.single (chainNext_node front post rfl more distance)

end

section

variable {operand : Regex} (greedy : operand.endsReluctant = false) (pre : Program)

include greedy

theorem generateQuestion_settles :
    Settles (fun fuel =>
        generateQuestion fuel (pre ++ operand.code 0) pre.length)
      (pre ++ Regex.code (.closure .question true operand) 0) := by
  simp only [generateQuestion, insertNode_append, appendNode]
  let option := instr .opBranch (.number 0) (operand.size + 1)
  refine Settles.bind (a := pre ++ option :: operand.code 0 ++
    [instr .opBranch (.number 0) 0]) ?_ ?_
  · refine link_from pre (operand.code 0 ++ [instr .opBranch (.number 0) 0])
      .opBranch (.number 0) (operand.size + 1) ?_ .refl ?_ ?_
    · simp [fresh, instr]
    · simp
    · simp [option]
  · refine Settles.bind (a := pre ++ option :: operand.code 0 ++
      [instr .opBranch (.number 0) 1, instr .opNothing (.number 0) 0]) ?_ ?_
    · refine link_from (pre ++ option :: operand.code 0)
        [instr .opNothing (.number 0) 0] .opBranch (.number 0) 1 ?_ ?_ ?_ ?_
      · simp [fresh, instr]
      · refine leads_node pre (operand.code 0 ++ [instr .opBranch (.number 0) 0,
          instr .opNothing (.number 0) 0]) .opBranch (.number 0)
          (operand.size + 1) ?_ rfl ?_ ?_
        · simp [option, fresh, instr]
        · omega
        · simp
      · simp
        omega
      · simp
    · refine link greedy (pre ++ [option])
        [instr .opBranch (.number 0) 1, instr .opNothing (.number 0) 0] 2
        ?_ ?_ ?_ ?_
      · simp
      · simp
      · simp
        omega
      · simp [Regex.code, ClosureOperator.greedyCode, option]

theorem generateStar_settles :
    Settles (fun fuel =>
        generateStar fuel (pre ++ operand.code 0) pre.length)
      (pre ++ Regex.code (.closure .star true operand) 0) := by
  simp only [generateStar, insertNode_append, appendNode]
  let first := instr .opBranch (.number 0)
  let back := instr .opGoto (.number 0) (-(operand.size + 2))
  let inner := pre ++ first 0 :: operand.code 1
  have through (post : Program) :
      Leads (chainNext (inner ++ post)) (pre.length + 1) inner.length := by
    have leads := operand.code_through (pre ++ [first 0]) post
    simpa [inner, Nat.add_assoc, Nat.add_comm 1] using leads
  refine Settles.bind (a := inner ++ [first 0]) ?_ ?_
  · refine link greedy (pre ++ [first 0]) [first 0] 1 ?_ ?_ ?_ ?_
    · simp [first, fresh, instr]
    · simp
    · simp
      omega
    · simp [inner]
  refine Settles.bind (a := inner ++ [first 1, instr .opGoto (.number 0) 0]) ?_ ?_
  · refine link_from inner [instr .opGoto (.number 0) 0] .opBranch (.number 0) 1 ?_ ?_ ?_ ?_
    · simp [first, fresh, instr]
    · rw [append_assoc]
      exact through _
    · simp
    · simp [first]
  refine Settles.bind (a := inner ++ [first 1, back]) ?_ ?_
  · refine link_from (inner ++ [first 1]) [] .opGoto (.number 0) (-(operand.size + 2)) ?_ ?_ ?_ ?_
    · simp
    · refine (through _).trans ?_
      refine leads_node inner _ .opBranch (.number 0) 1 rfl rfl ?_ ?_
      · exact Int.one_ne_zero
      · simp
    · simp [inner]
      omega
    · simp [back]
  refine Settles.bind (a := pre ++ first (operand.size + 3) ::
    operand.code 1 ++ [first 1, back, first 0]) ?_ ?_
  · refine link_from pre (operand.code 1 ++ [first 1, back, first 0])
      .opBranch (.number 0) (operand.size + 3) ?_ .refl ?_ ?_
    · simp [inner, first, fresh, instr]
    · simp [inner]
      omega
    · simp [first]
  · refine link_from (pre ++ first (operand.size + 3) :: operand.code 1 ++
      [first 1, back]) [instr .opNothing (.number 0) 0] .opBranch (.number 0)
      1 ?_ ?_ ?_ ?_
    · simp [first, fresh, instr]
    · refine leads_node pre (operand.code 1 ++ [first 1, back, first 0,
        instr .opNothing (.number 0) 0]) .opBranch (.number 0)
        (operand.size + 3) ?_ rfl ?_ ?_
      · simp [first, fresh, instr]
      · omega
      · simp
        omega
    · simp
      omega
    · simp [Regex.code, ClosureOperator.greedyCode, first, back]

theorem generatePlus_settles :
    Settles (fun fuel =>
        generatePlus fuel (pre ++ operand.code 0) pre.length)
      (pre ++ Regex.code (.closure .plus true operand) 0) := by
  simp only [generatePlus, appendNode]
  let first := instr .opBranch (.number 0)
  let back := instr .opGoto (.number 0) (-(operand.size + 1))
  let inner := pre ++ operand.code 1
  refine Settles.bind (a := inner ++ [first 0]) ?_ ?_
  · refine link greedy pre [first 0] 1 ?_ rfl ?_ rfl
    · simp [first, fresh, instr]
    · simp
  refine Settles.bind (a := inner ++ [first 0, back]) ?_ ?_
  · refine link_from (inner ++ [first 0]) [] .opGoto (.number 0) (-(operand.size + 1)) ?_ ?_ ?_ ?_
    · simp [fresh, instr]
    · simp
      exact .refl
    · simp [inner]
      omega
    · simp [back]
  refine Settles.bind (a := inner ++ [first 2, back, first 0]) ?_ ?_
  · refine link_from inner [back, first 0] .opBranch (.number 0) 2 ?_ ?_ ?_ ?_
    · simp [first, fresh, instr]
    · simp [inner]
      exact .refl
    · simp [inner]
      omega
    · simp [first]
  · refine link_from (inner ++ [first 2, back])
      [instr .opNothing (.number 0) 0] .opBranch (.number 0) 1 ?_ ?_ ?_ ?_
    · simp [first, fresh, instr]
    · let last := instr .opNothing (.number 0) 0
      have through := operand.code_through pre [first 2, back, first 0, last]
      rw [Nat.add_zero] at through
      rw [append_assoc]
      refine through.trans ?_
      refine leads_node inner [back, first 0, last] .opBranch (.number 0) 2 ?_ ?_ ?_ ?_
      · simp [inner, first]
      · simp [inner]
      · decide
      · simp
    · simp
      omega
    · simp [Regex.code, ClosureOperator.greedyCode, inner, first, back]

theorem repeatTerminal_settles (repetitions : Nat) :
    Settles (fun fuel => repeatTerminal fuel (operand.code 0) repetitions
        (pre ++ operand.code 0) pre.length)
      ((pre ++ operand.copiesCode repetitions).length,
        pre ++ operand.copiesCode repetitions ++ operand.code 0) := by
  induction repetitions generalizing pre with
  | zero => simpa [repeatTerminal, Regex.copiesCode] using Settles.const _
  | succ repetitions ih =>
    simp only [repeatTerminal, appendProgram]
    refine Settles.bind (a := (pre ++ operand.code 1) ++ operand.code 0) ?_ ?_
    · refine link greedy pre (operand.code 0) 1 rfl rfl ?_ rfl
      simp
    · have rest := ih (pre ++ operand.code 1)
      rw [Regex.copiesCode_succ]
      simpa using rest

end

theorem moreQuestions_settles {operand : Regex}
    (greedy : operand.endsReluctant = false) (pre : Program) (repetitions : Nat) :
    Settles (fun fuel => moreQuestions fuel (operand.code 0) repetitions
        (pre ++ Regex.code (.closure .question true operand) 0) pre.length)
      (pre ++ Regex.code (Regex.copies (.closure .question true operand)
        repetitions (.closure .question true operand)) 0) := by
  let optional := Regex.closure .question true operand
  induction repetitions generalizing pre with
  | zero => exact Settles.const _
  | succ repetitions ih =>
    simp only [moreQuestions, appendProgram]
    refine Settles.bind (a := pre ++ optional.code 0 ++ optional.code 0) ?_ ?_
    · exact generateQuestion_settles greedy (pre ++ optional.code 0)
    refine Settles.bind (a := pre ++ optional.code 1 ++ optional.code 0) ?_ ?_
    · refine link (r := optional) rfl pre (optional.code 0) 1 rfl rfl ?_ rfl
      simp [optional]
    · have rest := ih (pre ++ optional.code 1)
      simp only [append_assoc, length_append, Regex.length_code] at rest ⊢
      rw [Regex.copies, Regex.code_cat]
      exact rest

theorem generateQuestions_settles {operand : Regex}
    (greedy : operand.endsReluctant = false) (pre : Program) (repetitions : Nat) :
    Settles (fun fuel => generateQuestions fuel (operand.code 0)
        (pre ++ operand.code 0) pre.length (repetitions + 1))
      (pre ++ Regex.code (Regex.copies (.closure .question true operand)
        repetitions (.closure .question true operand)) 0) :=
  (generateQuestion_settles greedy pre).bind (moreQuestions_settles greedy pre repetitions)

end Program

/-!
## Compiling and reading

A reading says how a member function of the compiler ends: with a value, with
`-1`, or not at all.
-/

namespace Compile

variable {α β γ δ : Type}

/-- The function ends as the reading says.  The condition relates what was
read to the value and to the program. -/
def Ends (m : Nat → Option (Option α × RECompiler)) (outcome : Except Stop (β × PatternInput))
    (Post : β → α → Program → Prop) : Prop :=
  match outcome with
  | .ok (b, s) => ∃ a program, Post b a program ∧ Settles m (some a, ⟨s, program⟩)
  | .error .syntaxError => ∃ c, Settles m (none, c)
  | .error _ => Never m

private def goOn (f : Nat → α → Compile β) (fuel : Nat) :
    Option α × RECompiler → Option (Option β × RECompiler)
  | (none, c) => some (none, c)
  | (some a, c) => f fuel a c

private theorem bind_eq (m : Nat → Compile α) (f : Nat → α → Compile β)
    (c : RECompiler) (fuel : Nat) :
    (m fuel >>= f fuel) c = (m fuel c).bind (goOn f fuel) := rfl

variable {m : Nat → Compile α}

theorem settles_bind {f : Nat → α → Compile β} {c after : RECompiler} {a : α}
    {result : Option β × RECompiler} (first : Settles (fun fuel => m fuel c) (some a, after))
    (rest : Settles (fun fuel => f fuel a after) result) :
    Settles (fun fuel => (m fuel >>= f fuel) c) result :=
  (first.bind (g := goOn f) rest).congr (bind_eq m f c)

theorem settles_bind_none {c after : RECompiler} (f : Nat → α → Compile β)
    (first : Settles (fun fuel => m fuel c) (none, after)) :
    Settles (fun fuel => (m fuel >>= f fuel) c) (none, after) :=
  (first.bind (g := goOn f) (.const _)).congr (bind_eq m f c)

theorem never_bind {c : RECompiler}
    (f : Nat → α → Compile β) (never : Never (fun fuel => m fuel c)) :
    Never (fun fuel => (m fuel >>= f fuel) c) :=
  fun fuel => (bind_eq m f c fuel).trans (never.bind (goOn f) fuel)

theorem never_after {f : Nat → α → Compile β} {c after : RECompiler} {a : α}
    (first : Settles (fun fuel => m fuel c) (some a, after))
    (never : Never (fun fuel => f fuel a after)) :
    Never (fun fuel => (m fuel >>= f fuel) c) :=
  fun fuel => (bind_eq m f c fuel).trans (Never.after (g := goOn f) first never fuel)

namespace Ends

variable {outcome : Except Stop (β × PatternInput)} {Post : β → α → Program → Prop}

variable {m : Nat → Option (Option α × RECompiler)} {s : PatternInput} {program : Program}

theorem ok {b : β} {a : α} (post : Post b a program) (settles : Settles m (some a, ⟨s, program⟩)) :
    Ends m (.ok (b, s)) Post := ⟨a, program, post, settles⟩

theorem congr {f g : Nat → Option (Option α × RECompiler)}
    (ends : Ends g outcome Post) (same : ∀ fuel, f fuel = g fuel) :
    Ends f outcome Post := by
  obtain rfl : f = g := funext same
  exact ends

theorem failed {c : RECompiler} (returns : ∀ fuel, m fuel = some (none, c)) :
    Ends m (.error .syntaxError) Post :=
  ⟨c, (Settles.const _).congr returns⟩

theorem returned {b : β} {a : α} (post : Post b a program)
    (returns : ∀ fuel, m fuel = some (some a, ⟨s, program⟩)) :
    Ends m (.ok (b, s)) Post :=
  .ok post ((Settles.const _).congr returns)

theorem map {Post' : γ → α → Program → Prop} {first : Reading β}
    {g : β → γ} {outcome : Except Stop (γ × PatternInput)}
    (reads : (first >>= fun b => pure (g b)) s = some outcome)
    (one : ∀ o, first s = some o → Ends m o Post)
    (weaker : ∀ b a program, Post b a program → Post' (g b) a program) :
    Ends m outcome Post' := by
  change Reading.bind first _ s = some outcome at reads
  rw [Reading.bind] at reads
  split at reads
  · cases reads
  · rename_i stop here
    cases reads
    have stops := one _ here
    cases stop with
    | syntaxError => exact stops
    | endlessClass => exact stops
    | endlessChain => exact stops
  · rename_i b t here
    cases reads
    rcases one _ here with ⟨a, program, post, settles⟩
    exact ⟨a, program, weaker b a program post, settles⟩

theorem succ {f g : Nat → Option (Option α × RECompiler)} (ends : Ends g outcome Post)
    (zero : f 0 = none) (unroll : ∀ fuel, f (fuel + 1) = g fuel) : Ends f outcome Post := by
  match outcome, ends with
  | .ok (b, s), ⟨a, program, post, settles⟩ =>
    exact ⟨a, program, post, settles.succ zero unroll⟩
  | .error .syntaxError, ⟨c, settles⟩ => exact ⟨c, settles.succ zero unroll⟩
  | .error .endlessClass, never => exact Never.succ never zero unroll
  | .error .endlessChain, never => exact Never.succ never zero unroll

theorem after {m : Nat → Compile δ} {f : Nat → δ → Compile α} {c next : RECompiler} {d : δ}
    (settles : Settles (fun fuel => m fuel c) (some d, next))
    (rest : Ends (fun fuel => f fuel d next) outcome Post) :
    Ends (fun fuel => (m fuel >>= f fuel) c) outcome Post := by
  match outcome, rest with
  | .ok (b, s), ⟨a, program, post, last⟩ =>
    exact ⟨a, program, post, settles_bind settles last⟩
  | .error .syntaxError, ⟨c, last⟩ => exact ⟨c, settles_bind settles last⟩
  | .error .endlessClass, never => exact never_after settles never
  | .error .endlessChain, never => exact never_after settles never

theorem andThen {Post' : β → δ → Program → Prop} {m : Nat → Compile α}
    {f : Nat → α → Compile δ} {c : RECompiler} (ends : Ends (fun fuel => m fuel c) outcome Post)
    (rest : ∀ b s a program, Post b a program →
      Ends (fun fuel => f fuel a ⟨s, program⟩) (.ok (b, s)) Post') :
    Ends (fun fuel => (m fuel >>= f fuel) c) outcome Post' := by
  match outcome, ends with
  | .ok (b, s), ⟨a, program, post, settles⟩ =>
    exact after settles (rest b s a program post)
  | .error .syntaxError, ⟨c, settles⟩ => exact ⟨c, settles_bind_none f settles⟩
  | .error .endlessClass, never => exact never_bind f never
  | .error .endlessChain, never => exact never_bind f never

theorem bind {Post' : γ → δ → Program → Prop} {first : Reading β} {rest : β → Reading γ}
    {outcome : Except Stop (γ × PatternInput)} {m : Nat → Compile α} {f : Nat → α → Compile δ}
    (reads : (first >>= rest) s = some outcome)
    (one : ∀ o, first s = some o → Ends (fun fuel => m fuel ⟨s, program⟩) o Post)
    (other : ∀ b t a after, first s = some (.ok (b, t)) → Post b a after → rest b t = some outcome →
      Ends (fun fuel => f fuel a ⟨t, after⟩) outcome Post') :
    Ends (fun fuel => (m fuel >>= f fuel) ⟨s, program⟩) outcome Post' := by
  change Reading.bind first rest s = some outcome at reads
  rw [Reading.bind] at reads
  split at reads
  · cases reads
  · rename_i stop here
    cases reads
    have stops := one _ here
    cases stop with
    | syntaxError =>
      rcases stops with ⟨c, settles⟩
      exact ⟨c, settles_bind_none f settles⟩
    | endlessClass => exact never_bind f stops
    | endlessChain => exact never_bind f stops
  · rename_i b t here
    rcases one _ here with ⟨a, after, post, settles⟩
    exact Ends.after settles (other b t a after here post reads)

end Ends

end Compile

end Coast
