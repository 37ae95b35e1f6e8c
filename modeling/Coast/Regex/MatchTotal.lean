import Coast.Regex.BackRefStacks
import Coast.Regex.MatchSteps

/-!
# Runs that return

A run of the program of a tree returns when no closure repeats an operand
that takes no character.  The proof follows the tree: the run of a fragment
returns when the runs behind it do.
-/

namespace Coast

open Fuel Match MatchState Nat

mutual

/-- Whether a tree can match without taking a character.  An atom that begins
with a NUL is read as an empty text. -/
def Regex.blank : Regex → Bool
  | .terminal (.atom text) => cstr text = []
  | .terminal t => t.nullable
  | .group _ body => body.blank
  | .closure .plus _ operand => operand.blank
  | .closure _ _ _ => true
  | .nothing => true
  | .cat first rest => first.blank && rest.blank

def Branches.blank : Branches → Bool
  | .one branch => branch.blank
  | .more branch rest => branch.blank || rest.blank

end

mutual

def Regex.Progresses : Regex → Prop
  | .terminal _ => True
  | .group _ body => body.Progresses
  | .closure operator _ operand =>
    operand.Progresses ∧ (operator ≠ .question → operand.blank = false)
  | .nothing => True
  | .cat first rest => first.Progresses ∧ rest.Progresses

def Branches.Progresses : Branches → Prop
  | .one branch => branch.Progresses
  | .more branch rest => branch.Progresses ∧ rest.Progresses

end

namespace RE

variable {re : RE} {idx idxNew idxLast : Nat} {st after last : MatchState}

/-- What a part of a run that matched did. -/
structure Moves (re : RE) (strict : Bool) (idx : Nat) (st : MatchState)
    (idxNew : Nat) (after : MatchState) : Prop where
  forward : idx ≤ idxNew
  inside : idx < idxNew → idxNew ≤ re.fSearch.length
  advances : strict = true → idx < idxNew
  grown : st.Grown idx after
  ordered : Ordered idxNew after

theorem Moves.refl (re : RE) (ordered : Ordered idx st) : re.Moves false idx st idx st :=
  ⟨le_refl _, fun less => absurd less (lt_irrefl _), nofun, .refl _ _, ordered⟩

theorem Moves.failed (re : RE) (ordered : Ordered idx st)
    (grown : st.Grown idx after) : re.Moves false idx st idx after :=
  { Moves.refl re ordered with
    grown := grown
    ordered := grown.ordered ordered (le_refl _) }

theorem Moves.trans {one other : Bool} (first : re.Moves one idx st idxNew after)
    (second : re.Moves other idxNew after idxLast last) :
    re.Moves (one || other) idx st idxLast last where
  forward := le_trans first.forward second.forward
  inside less := by
    rcases lt_or_ge idxNew idxLast with more | same
    · exact second.inside more
    · have inside := first.inside (lt_of_lt_of_le less same)
      exact le_trans same inside
  advances strict := by
    have forward := first.forward
    have forward' := second.forward
    cases one with
    | true =>
      have less := first.advances rfl
      omega
    | false =>
      have less := second.advances strict
      omega
  grown := first.grown.trans first.forward second.grown
  ordered := second.ordered

theorem Moves.mono {strict strict' : Bool} (moves : re.Moves strict idx st idxNew after)
    (weaker : strict' = true → strict = true) :
    re.Moves strict' idx st idxNew after :=
  { moves with advances := fun isStrict => moves.advances (weaker isStrict) }

theorem Moves.weaken {strict : Bool} (moves : re.Moves strict idx st idxNew after) :
    re.Moves false idx st idxNew after := moves.mono nofun

structure Goal where
  Holds : Nat → MatchState → Prop
  congr : ∀ {idx one other}, one.backRefs = other.backRefs → Holds idx one → Holds idx other

/-- A match ends with the goal, and a failure with stacks that have grown. -/
def Outcome (goal : Goal) (idx : Nat) (st : MatchState) : Option Nat → MatchState → Prop
  | some idxNew, after => goal.Holds idxNew after
  | none, after => st.Grown idx after

theorem Outcome.trans {goal : Goal} (grown : st.Grown idx after)
    (forward : idx ≤ idxNew) {r : Option Nat} :
    Outcome goal idxNew after r last → Outcome goal idx st r last := by
  cases r with
  | some idxLast => exact id
  | none => exact grown.trans forward

def Goes (re : RE) (bound : Int) (goal : Goal) (p idx : Nat) (st : MatchState) : Prop :=
  re.Runs bound p idx st (Outcome goal idx st)

theorem Goes.runs {bound : Int} {goal : Goal} {p : Nat} {strict : Bool}
    (moves : re.Moves strict idx st idxNew after) (goes : re.Goes bound goal p idxNew after) :
    re.Runs bound p idxNew after (Outcome goal idx st) :=
  Runs.imp goes fun _ _ => Outcome.trans moves.grown moves.forward

end RE

namespace RE

variable {re : RE} {idx : Nat} {st : MatchState}

section

variable (ordered : Ordered idx st)
include ordered

theorem Moves.take {n : Nat} {strict : Bool} (inside : idx + n ≤ re.fSearch.length)
    (advances : strict = true → n ≠ 0) : re.Moves strict idx st (idx + n) st where
  forward := le_add_right _ _
  inside _ := inside
  advances isStrict := Nat.lt_add_of_pos_right (Nat.pos_of_ne_zero (advances isStrict))
  grown := .refl _ _
  ordered := ordered.mono (le_add_right _ _)

private theorem condition_moves (c : Bool) :
    ∀ idxNew ∈ (if c then some idx else none), re.Moves false idx st idxNew st := by
  intro idxNew member
  split at member
  · cases member
    exact Moves.refl re ordered
  · cases member

private theorem taken_moves {c strict : Bool} {n : Nat}
    (inside : c = true → idx + n ≤ re.fSearch.length) (advances : strict = true → n ≠ 0) :
    ∀ idxNew ∈ (if c then some (idx + n) else none), re.Moves strict idx st idxNew st := by
  intro idxNew member
  split at member
  · rename_i matched
    cases member
    exact Moves.take ordered (inside matched) advances
  · cases member

theorem matchBackref_moves (n : Nat) :
    ∃ result, re.matchBackref (st.backRefs n) idx = .ok result ∧
      ∀ idxNew ∈ result, re.Moves false idx st idxNew st := by
  have closed := (ordered n).closed
  rw [matchBackref]
  cases first : (st.backRefs n).1.head? with
  | none => exact ⟨none, rfl, nofun⟩
  | some s =>
    cases firstEnd : (st.backRefs n).2.head? with
    | none => exact ⟨none, rfl, nofun⟩
    | some e =>
      rcases closed e firstEnd with ⟨s', same, order⟩
      obtain rfl : s = s' := Option.some.inj (first.symm.trans same)
      dsimp only
      split
      · refine ⟨some idx, rfl, ?_⟩
        rintro _ ⟨rfl⟩
        exact Moves.refl re ordered
      · rw [if_neg (not_lt.mpr order)]
        split
        · exact ⟨none, rfl, nofun⟩
        · rename_i inside
          exact ⟨_, rfl, taken_moves ordered (fun _ => not_lt.mp inside) nofun⟩

theorem consume_terminal (t : Terminal) :
    ∃ result, re.consume t.opcode t.opdata idx st = .ok result ∧
      ∀ idxNew ∈ result, re.Moves (!Regex.blank (.terminal t)) idx st idxNew st := by
  cases t with
  | bol => exact ⟨_, rfl, condition_moves ordered _⟩
  | eol => exact ⟨_, rfl, condition_moves ordered _⟩
  | bow opdata => exact ⟨_, rfl, condition_moves ordered _⟩
  | backref number => exact matchBackref_moves ordered _
  | any =>
    refine ⟨_, rfl, taken_moves ordered (fun matched => ?_) fun _ => ?_⟩
    · simp only [matchAny, Bool.and_eq_true, decide_eq_true_eq] at matched
      exact matched.1
    · exact Nat.one_ne_zero
  | anyOf set =>
    refine ⟨_, rfl, taken_moves ordered (fun matched => ?_) fun _ => ?_⟩
    · simp only [matchAnyOf, Bool.and_eq_true, decide_eq_true_eq] at matched
      exact matched.1
    · exact Nat.one_ne_zero
  | atom text =>
    refine ⟨_, rfl, taken_moves ordered (fun matched => ?_) fun solid => ?_⟩
    · simp only [matchAtom, Bool.and_eq_true, decide_eq_true_eq] at matched
      rw [add_comm]
      exact matched.1
    · simp only [Regex.blank, Bool.not_eq_true', decide_eq_false_iff_not] at solid
      exact fun empty => solid (List.length_eq_zero_iff.mp empty)

end

/-! ## Fragments

A fragment is sound when its runs return as soon as the runs from where it
leads to do. -/

def LeadsTo (r : Regex) (p : Nat) (offset : Int) (e : Nat) : Prop :=
  if r.endsReluctant then e = p + r.size
  else (p + r.size + offset : Int) = e + 1

/-- The runs behind a fragment, after moves over its part of the subject. -/
def Behind (re : RE) (bound : Int) (goal : Goal) (strict : Bool) (idx : Nat)
    (st : MatchState) (e : Nat) : Prop :=
  ∀ idxNew after, re.Moves strict idx st idxNew after → re.Goes bound goal e idxNew after

def Sound (re : RE) (r : Regex) : Prop :=
  ∀ ⦃bound : Int⦄ ⦃goal : Goal⦄ ⦃p e idx : Nat⦄ ⦃st : MatchState⦄
    ⦃offset : Int⦄, Placed re.fProgram p (r.code offset) →
    LeadsTo r p offset e → p + r.size ≤ e → e < bound →
    bound ≤ re.fProgram.length → Ordered idx st →
    re.Behind bound goal (!r.blank) idx st e → re.Goes bound goal p idx st

def Tries (re : RE) (goal : Goal) (p idx : Nat) (st : MatchState) : Prop :=
  Yields (fun fuel => re.tryBranches fuel p idx) st (Outcome goal idx st)

/-- Branches are sound both in a row and in the loop over the branches. -/
def BranchesSound (re : RE) (b : Branches) : Prop :=
  ∀ ⦃bound : Int⦄ ⦃goal : Goal⦄ ⦃p e idx : Nat⦄ ⦃st : MatchState⦄
    ⦃target : Opcode⦄ ⦃targetData : OpData⦄ ⦃targetOffset : Int⦄,
    Placed re.fProgram p b.code → e = p + b.size →
    re.Has e target targetData targetOffset → target ≠ .opBranch →
    e < bound → bound ≤ re.fProgram.length → Ordered idx st →
    re.Behind bound goal (!b.blank) idx st e →
    re.Goes bound goal p idx st ∧ re.Tries goal p idx st

section

variable {bound : Int} {goal : Goal} {p q e : Nat} {offset : Int}
  {opdata : OpData} {Post : Option Nat → MatchState → Prop}

theorem runs_pass {opcode : Opcode} (passes : opcode = .opNothing ∨ opcode = .opGoto)
    (has : re.Has p opcode opdata offset) (before : (p : Int) < bound)
    (goes : (p : Int) + offset = q) (rest : re.Runs bound q idx st Post) :
    re.Runs bound p idx st Post := by
  rw [← goes] at rest
  rcases passes with rfl | rfl
  · exact runs_consume has rfl before rfl rest
  · exact runs_consume has rfl before rfl rest

theorem Behind.imp {strict strict' : Bool} {idxNew : Nat}
    {after : MatchState} (behind : re.Behind bound goal strict idx st e)
    (moves : re.Moves strict' idx st idxNew after) (same : (strict' || strict) = strict) :
    re.Behind bound goal strict idxNew after e :=
  fun idxLast last more => behind idxLast last (same ▸ moves.trans more)

end

theorem leadsTo_next (r : Regex) (p : Nat) : LeadsTo r p 1 (p + r.size) := by
  rw [LeadsTo]
  split
  · rfl
  · omega

theorem sound_cat {first rest : Regex} (firstSound : re.Sound first)
    (restSound : re.Sound rest) : re.Sound (.cat first rest) := by
  intro bound goal p e idx st offset placed leads inFront before inside ordered behind
  have second := placed.right
  rw [Regex.length_code] at second
  rw [Regex.size] at inFront
  have pos := rest.size_pos
  have leads' : LeadsTo rest (p + first.size) offset e := by
    rw [LeadsTo, Regex.size, Regex.endsReluctant] at leads
    rw [LeadsTo]
    split
    · rename_i reluctant
      rw [if_pos reluctant] at leads
      omega
    · rename_i greedy
      rw [if_neg greedy] at leads
      omega
  refine firstSound placed.left (leadsTo_next first p) (le_refl _)
    (by omega) inside ordered fun idxNew after moves => ?_
  refine restSound second leads' (by omega) before inside moves.ordered fun idxLast last more => ?_
  have both := moves.trans more
  rw [← Bool.not_and] at both
  exact behind idxLast last both

variable (fits : re.fProgram.Fits)

include fits

theorem sound_terminal (t : Terminal) : re.Sound (.terminal t) := by
  intro bound goal p e idx st offset placed leads _ before inside ordered behind
  have has := has_of_fits fits placed.head
  have goes : (p : Int) + offset = e := by
    have leads : (p + 1 + offset : Int) = e + 1 := leads
    omega
  have consumes : t.opcode.consumes = true := by cases t <;> rfl
  have here : (p : Int) < bound := by omega
  rcases consume_terminal ordered t with ⟨result, looks, moves⟩
  cases result with
  | none => exact runs_fail has consumes here looks (.refl _ _)
  | some idxNew =>
    have moved := moves idxNew rfl
    have rest := (behind idxNew st moved).runs moved
    rw [← goes] at rest
    exact runs_consume has consumes here looks rest

theorem sound_nothing : re.Sound .nothing := by
  intro bound goal p e idx st offset placed leads _ before inside ordered behind
  have has := has_of_fits fits placed.head
  have goes : (p : Int) + offset = e := by
    have leads : (p + 1 + offset : Int) = e + 1 := leads
    omega
  exact runs_pass (.inl rfl) has (by omega) goes (behind idx st (Moves.refl re ordered))

theorem sound_group (number : Nat) {body : Branches} (bodySound : re.BranchesSound body) :
    re.Sound (.group number body) := by
  intro bound goal p e idx st offset placed leads inFront before inside ordered behind
  have opening := has_of_fits fits placed.head
  have closing := has_of_fits fits placed.tail.right.head
  rw [Branches.length_code] at closing
  rw [Regex.size] at inFront
  have goes : ((p + 1 + body.size : Nat) : Int) + offset = e := by
    have leads : (p + (body.size + 2 : Nat) + offset : Int) = e + 1 := leads
    omega
  refine runs_open (by omega) inside opening ?_
  have inner : re.Goes bound goal (p + 1) idx (st.pushStart number idx) := by
    refine (bodySound placed.tail.left rfl closing nofun (by omega) inside
      (ordered.pushStart number) fun idxNew after moves => ?_).1
    have opened := moves.grown.opened
    have moved : re.Moves (!body.blank) idx st idxNew
        (after.pushEnd number idxNew) :=
      { forward := moves.forward
        inside := moves.inside
        advances := moves.advances
        grown := moves.grown.pushEnd moves.forward
        ordered := moves.ordered.pushEnd opened }
    refine runs_close (by omega) inside closing ?_
    rw [goes]
    refine Runs.imp (behind idxNew _ moved) ?_
    rintro (_ | idxLast) last outcome
    · exact Grown.popEnd outcome opened
    · exact goal.congr (backRefs_setEnd _ _ _).symm outcome
  refine Runs.imp inner ?_
  rintro (_ | idxNew) after outcome
  · exact Grown.popStart outcome
  · exact goal.congr (backRefs_setStart _ _ _).symm outcome

section

variable {bound : Int} {goal : Goal} {p q e idx : Nat} {offset : Int}
  {st : MatchState} (placed : Placed re.fProgram q
    [instr .opBranch (.number 0) 1, instr .opNothing (.number 0) offset])
  (goes : ((q + 1 : Nat) : Int) + offset = e) (inFront : q + 1 < e)
  (before : e < bound)

include placed goes inFront before

theorem goes_nothing (rest : re.Goes bound goal e idx st) : re.Goes bound goal (q + 1) idx st :=
  runs_pass (.inl rfl) (has_of_fits fits placed.tail.head) (by omega) goes rest

theorem tries_nothing (inside : bound ≤ re.fProgram.length)
    (rest : re.Goes bound goal e idx st) : re.Tries goal q idx st :=
  tries_last (by omega : (q : Int) + 1 = (q + 1 : Nat))
    (has_of_fits fits placed.tail.head) inside (has_of_fits fits placed.head) nofun
    Int.one_ne_zero (goes_nothing fits placed goes inFront before rest)

end

omit fits in
theorem tries_choice {bound : Int} {goal : Goal} {p q idx : Nat}
    {offset offset' : Int} {st : MatchState} (ordered : Ordered idx st)
    (has : re.Has p .opBranch (.number 0) offset) (other : re.Has q .opBranch (.number 0) offset')
    (goes : (p : Int) + offset = q) (inFront : p < q) (inside : bound ≤ re.fProgram.length)
    (first : re.Goes bound goal (p + 1) idx st)
    (second : ∀ after, re.Moves false idx st idx after →
      re.Tries goal q idx after) : re.Tries goal p idx st := by
  refine tries_next goes other inside has rfl (by omega) (Runs.imp first ?_)
  rintro (_ | idxNew) after outcome
  · have moves := Moves.failed re ordered outcome
    exact (second after moves).imp fun _ _ =>
      Outcome.trans outcome (le_refl _)
  · exact outcome

theorem sound_question {operand : Regex} (operandSound : re.Sound operand) :
    re.Sound (.closure .question true operand) := by
  intro bound goal p e idx st offset placed leads inFront before inside ordered behind
  rcases placed.question with ⟨start, body, ending⟩
  have leads : (p + (operand.size + 3 : Nat) + offset : Int) = e + 1 := leads
  have inFront : p + (operand.size + 3) ≤ e := inFront
  let q := p + 1 + operand.size
  have goes : ((q + 1 : Nat) : Int) + offset = e := by omega
  have rest {idxNew : Nat} {after : MatchState} (moves : re.Moves false idx st idxNew after) :
      re.Goes bound goal e idxNew after := behind idxNew after moves
  have nothing {idxNew : Nat} {after : MatchState} (moves : re.Moves false idx st idxNew after) :
      re.Goes bound goal (q + 1) idxNew after :=
    goes_nothing fits ending goes (by omega) before (rest moves)
  have lone {idxNew : Nat} {after : MatchState} (moves : re.Moves false idx st idxNew after) :
      re.Goes bound goal q idxNew after :=
    runs_lone (by omega : (q : Int) + 1 = (q + 1 : Nat))
      (has_of_fits fits ending.tail.head) (by omega) (has_of_fits fits ending.head) nofun
      (nothing moves)
  have first : re.Goes bound goal (p + 1) idx st := by
    cases reluctant : operand.endsReluctant with
    | true =>
      refine operandSound (e := q) body ?_ (le_refl _)
        (by omega) inside ordered fun idxNew after moves =>
          lone moves.weaken
      rw [LeadsTo, if_pos reluctant]
    | false =>
      refine operandSound (e := q + 1) body ?_ (by omega)
        (by omega) inside ordered fun idxNew after moves =>
          nothing moves.weaken
      rw [LeadsTo, reluctant, if_neg Bool.false_ne_true]
      omega
  have choice : (p : Int) + (operand.size + 1) = q := by omega
  refine runs_branch choice (has_of_fits fits ending.head) (by omega)
    (has_of_fits fits start.head) rfl ?_
  refine tries_choice ordered (has_of_fits fits start.head) (has_of_fits fits ending.head)
    choice (by omega) inside first fun after moves => ?_
  exact tries_nothing fits ending goes (by omega) before inside (rest moves)

theorem sound_star {operand : Regex} (operandSound : re.Sound operand)
    (solid : operand.blank = false) :
    re.Sound (.closure .star true operand) := by
  intro bound goal p e idx st offset placed leads inFront before inside ordered behind
  rcases placed.star with ⟨start, body, ending⟩
  have leads : (p + (operand.size + 5 : Nat) + offset : Int) = e + 1 := leads
  have inFront : p + (operand.size + 5) ≤ e := inFront
  let again := p + 1 + operand.size
  let q := again + 2
  have goes : ((q + 1 : Nat) : Int) + offset = e := by omega
  have choice : (p : Int) + (operand.size + 3) = q := by omega
  induction measure : re.fSearch.length - idx using Nat.strong_induction_on
    generalizing idx st with
  | _ n ih =>
    have back {idxNew : Nat} {after : MatchState} (moves : re.Moves true idx st idxNew after) :
        re.Goes bound goal again idxNew after := by
      have less := moves.advances rfl
      have inSubject := moves.inside less
      refine runs_lone (by omega : (again : Int) + 1 = (again + 1 : Nat))
        (has_of_fits fits ending.tail.head) (by omega) (has_of_fits fits ending.head) nofun ?_
      refine runs_pass (.inr rfl) (has_of_fits fits ending.tail.head) (by omega)
        (by omega : ((again + 1 : Nat) : Int) + -(operand.size + 2) = p) ?_
      refine ih (re.fSearch.length - idxNew) (by omega)
        moves.ordered (behind.imp moves.weaken rfl) rfl
    have first : re.Goes bound goal (p + 1) idx st := by
      refine operandSound (e := again) body
        (leadsTo_next operand (p + 1)) (le_refl _) (by omega) inside
        ordered fun idxNew after moves => back ?_
      rwa [solid] at moves
    refine runs_branch choice (has_of_fits fits ending.tail.tail.head) (by omega)
      (has_of_fits fits start.head) rfl ?_
    refine tries_choice ordered (has_of_fits fits start.head)
      (has_of_fits fits ending.tail.tail.head) choice (by omega) inside first
      fun after moves => ?_
    exact tries_nothing fits ending.tail.tail goes (by omega) before inside (behind idx after moves)

theorem sound_plus {operand : Regex} (operandSound : re.Sound operand)
    (solid : operand.blank = false) :
    re.Sound (.closure .plus true operand) := by
  intro bound goal p e idx st offset placed leads inFront before inside ordered behind
  rcases placed.plus with ⟨body, ending⟩
  have leads : (p + (operand.size + 4 : Nat) + offset : Int) = e + 1 := leads
  have inFront : p + (operand.size + 4) ≤ e := inFront
  have strict : (!(Regex.closure .plus true operand).blank) = true := by
    rw [Regex.blank, solid]
    rfl
  rw [strict] at behind
  let again := p + operand.size
  let q := again + 2
  have goes : ((q + 1 : Nat) : Int) + offset = e := by omega
  have choice : (again : Int) + 2 = q := rfl
  induction measure : re.fSearch.length - idx using Nat.strong_induction_on
    generalizing idx st with
  | _ n ih =>
    refine operandSound (e := again) body (leadsTo_next operand p)
      (le_refl _) (by omega) inside ordered fun idxNew after moves => ?_
    rw [solid] at moves
    have less := moves.advances rfl
    have inSubject := moves.inside less
    have back : re.Goes bound goal (again + 1) idxNew after := by
      refine runs_pass (.inr rfl) (has_of_fits fits ending.tail.head) (by omega)
        (by omega : ((again + 1 : Nat) : Int) + -(operand.size + 1) = p) ?_
      exact ih (re.fSearch.length - idxNew) (by omega) moves.ordered (behind.imp moves rfl) rfl
    refine runs_branch choice (has_of_fits fits ending.tail.tail.head) (by omega)
      (has_of_fits fits ending.head) rfl ?_
    refine tries_choice moves.ordered (has_of_fits fits ending.head)
      (has_of_fits fits ending.tail.tail.head) choice (by omega) inside back
      fun last more => ?_
    exact tries_nothing fits ending.tail.tail goes (by omega) before inside
      (behind idxNew last (moves.trans more))

section

variable {bound : Int} {goal : Goal} {p idx : Nat} {st : MatchState} {operand : Regex}

def stepGoal (re : RE) (strict : Bool) (idx : Nat) (st : MatchState) : Goal where
  Holds idxNew after := re.Moves strict idx st idxNew after
  congr same moves :=
    { moves with
      grown := fun n => same ▸ moves.grown n
      ordered := fun n => same ▸ moves.ordered n }

theorem operand_runs (operandSound : re.Sound operand)
    (placed : Placed re.fProgram p (operand.code 1 ++ [instr .opEnd (.number 0) 0]))
    (inside : p + operand.size + 1 ≤ re.fProgram.length) (ordered : Ordered idx st) :
    re.Runs ((p + operand.size + 1 : Nat) : Int) p idx st
      (Outcome (re.stepGoal (!operand.blank) idx st) idx st) := by
  have ending := placed.right.head
  rw [Regex.length_code] at ending
  refine operandSound placed.left (leadsTo_next operand p) (le_refl _)
    (by omega) (by omega) ordered fun idxNew after moves => ?_
  exact runs_end (has_of_fits fits ending) (by omega) moves

variable {bound : Int} {goal : Goal} {e : Nat}
  (operandSound : re.Sound operand)
  (placed : Placed re.fProgram (p + 1) (operand.code 1 ++ [instr .opEnd (.number 0) 0]))
  (isEnd : e = p + 1 + operand.size + 1) (before : e < bound)
  (inside : bound ≤ re.fProgram.length)

include operandSound placed isEnd before inside

theorem operand_andThen {Post : Option Nat → MatchState → Prop}
    {rest : Nat → MatchState → Prop} (ordered : Ordered idx st)
    (failed : ∀ after, st.Grown idx after → Post none after)
    (matched : ∀ idxNew after, re.Moves (!operand.blank) idx st idxNew after → rest idxNew after) :
    re.Runs e ((p + 1 : Nat) : Int) idx st (andThen Post rest) := by
  have runs := operand_runs fits operandSound placed (by omega) ordered
  rw [← isEnd] at runs
  refine Runs.imp runs ?_
  rintro (_ | idxNew) after outcome
  · exact failed after outcome
  · exact matched idxNew after outcome

theorem maybe_total (ordered : Ordered idx st) (behind : re.Behind bound goal false idx st e) :
    Yields (fun fuel => re.reluctantMaybe fuel p e idx) st (Outcome goal idx st) := by
  refine maybe_returns inside (Runs.imp (behind idx st (Moves.refl re ordered)) ?_)
  rintro (_ | idxNew) after outcome
  · have moves := Moves.failed re ordered outcome
    refine operand_andThen fits operandSound placed isEnd before inside
      moves.ordered (fun last grown => ?_) fun idxNew last more => ?_
    · exact moves.grown.trans (le_refl _) grown
    · have both := (moves.trans more).weaken
      exact (behind idxNew last both).runs both
  · exact outcome

theorem plus_total (solid : operand.blank = false) (ordered : Ordered idx st)
    (behind : re.Behind bound goal true idx st e) :
    Yields (fun fuel => re.reluctantPlus fuel p e idx) st (Outcome goal idx st) := by
  induction measure : re.fSearch.length - idx using Nat.strong_induction_on
    generalizing idx st with
  | _ n ih =>
    refine plus_returns inside (operand_andThen fits operandSound placed
      isEnd before inside ordered (fun _ grown => grown)
      fun idxNew after moves => ?_)
    rw [solid] at moves
    have less := moves.advances rfl
    have inSubject := moves.inside less
    refine Runs.imp (behind idxNew after moves) ?_
    rintro (_ | idxLast) last outcome
    · have both := moves.trans (Moves.failed re moves.ordered outcome)
      have loop := ih (re.fSearch.length - idxNew) (by omega) both.ordered (behind.imp both rfl) rfl
      exact loop.imp fun _ _ => Outcome.trans both.grown both.forward
    · exact outcome

theorem star_total (solid : operand.blank = false) (ordered : Ordered idx st)
    (behind : re.Behind bound goal false idx st e) :
    Yields (fun fuel => re.reluctantStar fuel p e idx) st (Outcome goal idx st) := by
  induction measure : re.fSearch.length - idx using Nat.strong_induction_on
    generalizing idx st with
  | _ n ih =>
    refine star_returns inside (Runs.imp (behind idx st (Moves.refl re ordered)) ?_)
    rintro (_ | idxNew) after outcome
    · have failed := Moves.failed re ordered outcome
      refine operand_andThen fits operandSound placed isEnd before inside
        failed.ordered (fun last grown => ?_) fun idxNew last moves => ?_
      · exact failed.grown.trans (le_refl _) grown
      · rw [solid] at moves
        have both := failed.trans moves
        have less := both.advances rfl
        have inSubject := both.inside less
        have loop := ih (re.fSearch.length - idxNew)
          (by omega) both.ordered (behind.imp both.weaken rfl) rfl
        exact loop.imp fun _ _ => Outcome.trans both.grown both.forward
    · exact outcome

end

theorem sound_reluctant {operator : ClosureOperator} {operand : Regex}
    (operandSound : re.Sound operand) (solid : operator ≠ .question → operand.blank = false) :
    re.Sound (.closure operator false operand) := by
  intro bound goal p e idx st offset placed leads inFront before inside ordered behind
  have code : Regex.code (.closure operator false operand) offset =
      instr operator.reluctant (.number 0) (operand.size + 2) ::
        (operand.code 1 ++ [instr .opEnd (.number 0) 0]) := by
    simp [Regex.code, ClosureOperator.reluctantCode]
  rw [code] at placed
  have leads : e = p + (operand.size + 2) := leads
  have isEnd : e = p + 1 + operand.size + 1 := by omega
  refine runs_reluctant (by omega) (has_of_fits fits placed.head)
    (by omega : (p : Int) + (operand.size + 2) = e) ?_
  cases operator with
  | question =>
    exact maybe_total fits operandSound placed.tail isEnd before inside ordered behind
  | star =>
    exact star_total fits operandSound placed.tail isEnd before inside (solid nofun) ordered behind
  | plus =>
    have solid := solid nofun
    rw [Regex.blank, solid] at behind
    exact plus_total fits operandSound placed.tail isEnd before inside solid ordered behind

theorem branchesSound_one {branch : Regex} (sound : re.Sound branch) :
    re.BranchesSound (.one branch) := by
  intro bound goal p e idx st target targetData targetOffset placed isEnd atEnd
    other before inside ordered behind
  rw [Branches.size] at isEnd
  have goes : (p : Int) + ((branch.code 0).length + 1) = e := by
    rw [Regex.length_code]
    omega
  have body : re.Goes bound goal (p + 1) idx st := by
    obtain rfl : e = p + 1 + branch.size := by omega
    exact sound placed.tail (leadsTo_next branch (p + 1)) (le_refl _)
      before inside ordered behind
  have has := has_of_fits fits placed.head
  refine ⟨?_, ?_⟩
  · exact runs_lone goes atEnd (by omega) has other body
  · exact tries_last goes atEnd inside has other (by omega) body

theorem branchesSound_more {branch : Regex} {rest : Branches}
    (sound : re.Sound branch) (restSound : re.BranchesSound rest) :
    re.BranchesSound (.more branch rest) := by
  intro bound goal p e idx st target targetData targetOffset placed isEnd atEnd
    other before inside ordered behind
  rw [Branches.size] at isEnd
  let q := p + 1 + branch.size
  have goes : (p : Int) + ((branch.code 0).length + 1) = q := by
    rw [Regex.length_code]
    omega
  have restPlaced : Placed re.fProgram q rest.code := by
    have behindBranch := placed.tail.right
    rwa [Regex.length_code] at behindBranch
  have has := has_of_fits fits placed.head
  obtain ⟨restOffset, restHas⟩ : ∃ offset, re.Has q .opBranch (.number 0) offset := by
    cases rest with
    | one _ => exact ⟨_, has_of_fits fits restPlaced.head⟩
    | more _ _ => exact ⟨_, has_of_fits fits restPlaced.head⟩
  rw [Branches.blank] at behind
  have others {idxNew : Nat} {after : MatchState}
      (moves : re.Moves (!branch.blank) idx st idxNew after) :
      re.Goes bound goal q idxNew after := by
    refine (restSound restPlaced (by omega) atEnd other before inside
      moves.ordered fun idxLast last more => ?_).1
    refine behind idxLast last ((moves.trans more).mono fun isStrict => ?_)
    simp only [Bool.not_or, Bool.and_eq_true] at isStrict
    rw [isStrict.1, Bool.true_or]
  have first : re.Goes bound goal (p + 1) idx st := by
    have placedBranch := placed.tail.left
    cases reluctant : branch.endsReluctant with
    | true =>
      refine sound (e := q) placedBranch ?_ (le_refl _) (by omega) inside
        ordered fun idxNew after moves => others moves
      rw [LeadsTo, if_pos reluctant]
    | false =>
      refine sound (e := e) placedBranch ?_ (by omega) before inside ordered
        fun idxNew after moves => behind idxNew after (moves.mono ?_)
      · rw [LeadsTo, reluctant, if_neg Bool.false_ne_true, Branches.length_code]
        omega
      · intro isStrict
        simp only [Bool.not_or, Bool.and_eq_true] at isStrict
        exact isStrict.1
  have second (after : MatchState)
      (moves : re.Moves false idx st idx after) : re.Tries goal q idx after := by
    refine (restSound restPlaced (by omega) atEnd other before inside
      moves.ordered fun idxLast last more => ?_).2
    refine behind idxLast last ((moves.trans more).mono fun isStrict => ?_)
    simp only [Bool.not_or, Bool.and_eq_true] at isStrict
    exact isStrict.2
  have tries : re.Tries goal p idx st :=
    tries_choice ordered has restHas goes (by omega) inside first second
  exact ⟨runs_branch goes restHas (by omega) has rfl tries, tries⟩

mutual

theorem code_sound : ∀ r : Regex, r.Progresses → re.Sound r
  | .terminal t, _ => sound_terminal fits t
  | .group number body, progresses =>
    sound_group fits number (branches_sound body progresses)
  | .closure .question true operand, progresses =>
    sound_question fits (code_sound operand progresses.1)
  | .closure .star true operand, progresses =>
    sound_star fits (code_sound operand progresses.1) (progresses.2 nofun)
  | .closure .plus true operand, progresses =>
    sound_plus fits (code_sound operand progresses.1) (progresses.2 nofun)
  | .closure _ false operand, progresses =>
    sound_reluctant fits (code_sound operand progresses.1) progresses.2
  | .nothing, _ => sound_nothing fits
  | .cat first rest, progresses =>
    sound_cat (code_sound first progresses.1) (code_sound rest progresses.2)

theorem branches_sound : ∀ b : Branches, b.Progresses → re.BranchesSound b
  | .one branch, progresses =>
    branchesSound_one fits (code_sound branch progresses)
  | .more branch rest, progresses =>
    branchesSound_more fits (code_sound branch progresses.1) (branches_sound rest progresses.2)

end

theorem program_returns {tree : Branches} (progresses : tree.Progresses)
    (isProgram : re.fProgram = tree.program) (i : Nat) :
    ∃ result after, Settles (fun fuel =>
      re.matchNodes fuel 0 (-1) i (matchStart i)) (.ok result, after) := by
  have whole : Placed re.fProgram 0 tree.program := by
    rw [isProgram]
    exact Placed.self _
  have length : re.fProgram.length = tree.size + 1 := by
    rw [isProgram, Branches.program, List.length_append,
      Branches.length_code, List.length_singleton]
  have ending := has_of_fits fits whole.right.head
  rw [Branches.length_code, zero_add] at ending
  let anything : Goal := ⟨fun _ _ => True, fun _ _ => trivial⟩
  have before : (tree.size : Int) < re.fProgram.length := by omega
  have runs : re.Goes re.fProgram.length anything 0 i (matchStart i) := by
    refine (branches_sound fits tree progresses whole.left
      (zero_add _).symm ending nofun before (Int.le_refl _)
      (ordered_matchStart i) fun idxNew after moves => ?_).1
    exact runs_end ending before trivial
  rcases runs.call (Int.le_refl _) with ⟨result, after, _, settles⟩
  exact ⟨result, after, settles⟩

end RE

end Coast
