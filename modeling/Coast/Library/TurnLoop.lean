import Mathlib.Logic.Function.Iterate
import Mathlib.Logic.Relation

/-!
# Loops that go turn after turn

A turn of a loop gives a result or the state for the next turn.
-/

namespace Coast.TurnLoop

variable {σ ρ : Type}

/-- The loop ends with a result after finitely many turns. -/
inductive Ends (turn : σ → ρ ⊕ σ) : σ → ρ → Prop
  | done {s : σ} {r : ρ} : turn s = .inl r → Ends turn s r
  | again {s next : σ} {r : ρ} : turn s = .inr next → Ends turn next r → Ends turn s r

variable {turn : σ → ρ ⊕ σ}

theorem Ends.unique {s : σ} {first second : ρ} (one : Ends turn s first)
    (other : Ends turn s second) : first = second := by
  induction one with
  | done result =>
    cases other with
    | done same => exact Sum.inl.inj (result.symm.trans same)
    | again goesOn _ => cases result.symm.trans goesOn
  | again goesOn _ ih =>
    cases other with
    | done result => cases result.symm.trans goesOn
    | again same rest =>
      cases goesOn.symm.trans same
      exact ih rest

def Decreases (turn : σ → ρ ⊕ σ) (size : σ → Nat) : Prop :=
  ∀ s next, turn s = .inr next → size next < size s

/-- What a loop with a bound on its turns computes is the result of the loop,
when the bound is larger than the state. -/
theorem ends_bounded {size : σ → Nat} (decreases : Decreases turn size) (run : Nat → σ → ρ)
    (unroll : ∀ bound s, run (bound + 1) s =
      (turn s).elim (fun r => r) (fun next => run bound next)) :
    ∀ bound s, size s < bound → Ends turn s (run bound s) := by
  intro bound
  induction bound with
  | zero => exact fun s small => absurd small (Nat.not_lt_zero _)
  | succ bound ih =>
    intro s small
    rw [unroll]
    cases result : turn s with
    | inl r => exact .done result
    | inr next =>
      have smaller := decreases s next result
      exact .again result (ih next (by omega))

/-- What every turn does: it gives a result or takes a step. -/
def Makes (turn : σ → ρ ⊕ σ) (step : σ → σ → Prop) (give : σ → ρ → Prop) : Prop :=
  ∀ s, (turn s).elim (give s) (step s)

/-- The loop with a bound on its turns; `stop` is not needed when the bound
is large enough. -/
def runFor (turn : σ → ρ ⊕ σ) (stop : σ → ρ) : Nat → σ → ρ
  | 0, s => stop s
  | bound + 1, s => (turn s).elim (fun r => r) (runFor turn stop bound)

def run (turn : σ → ρ ⊕ σ) (size : σ → Nat) (stop : σ → ρ) (s : σ) : ρ :=
  runFor turn stop (size s + 1) s

variable {size : σ → Nat} {stop : σ → ρ} {step : σ → σ → Prop} {give : σ → ρ → Prop}

theorem ends_run (decreases : Decreases turn size) (s : σ) : Ends turn s (run turn size stop s) :=
  ends_bounded decreases (runFor turn stop) (fun _ _ => rfl) _ s (Nat.lt_succ_self _)

/-- A result that the loop ends with is what running it gives. -/
theorem Ends.run_eq {s : σ} {r : ρ} (ends : Ends turn s r)
    (decreases : Decreases turn size) : run turn size stop s = r :=
  (ends_run decreases s).unique ends

theorem Makes.decreases (makes : Makes turn step give)
    (smaller : ∀ s next, step s next → size next < size s) :
    Decreases turn size := by
  intro s next goesOn
  apply smaller
  have made := makes s
  rw [goesOn] at made
  exact made

/-- What the turns do, from the first one to the result. -/
theorem Makes.relates {whole : σ → ρ → Prop} (makes : Makes turn step give)
    (one : ∀ s r, give s r → whole s r) (more : ∀ s next r, step s next → whole next r → whole s r)
    {s : σ} {r : ρ} (ends : Ends turn s r) : whole s r := by
  induction ends with
  | @done s r result =>
    have made := makes s
    rw [result] at made
    exact one s r made
  | @again s next r goesOn _ ih =>
    have made := makes s
    rw [goesOn] at made
    exact more s next r made ih

theorem Makes.run_relates (makes : Makes turn step give)
    (smaller : ∀ s next, step s next → size next < size s)
    (more : ∀ s next r, step s next → give next r → give s r) (stop : σ → ρ) (s : σ) :
    give s (run turn size stop s) :=
  makes.relates (fun _ _ given => given) more (ends_run (makes.decreases smaller) s)

section UntilSame

variable [DecidableEq σ] {f : σ → σ}

/-- One turn of a loop that applies `f` until that changes nothing. -/
def untilSame (f : σ → σ) (s : σ) : σ ⊕ σ := if f s = s then .inl s else .inr (f s)

theorem untilSame_done {s : σ} (same : f s = s) : Ends (untilSame f) s s := .done (if_pos same)

theorem untilSame_again {s r : σ} (changed : f s ≠ s)
    (ends : Ends (untilSame f) (f s) r) : Ends (untilSame f) s r :=
  .again (if_neg changed) ends

/-- The loop ends in a value that `f` does not change, after `f` was applied
some number of times. -/
theorem Ends.settled {s r : σ} (ends : Ends (untilSame f) s r) : f r = r ∧ ∃ n, f^[n] s = r := by
  induction ends with
  | @done s r result =>
    by_cases same : f s = s
    · rw [untilSame, if_pos same] at result
      cases result
      exact ⟨same, 0, rfl⟩
    · rw [untilSame, if_neg same] at result
      cases result
  | @again s next r goesOn _ ih =>
    by_cases same : f s = s
    · rw [untilSame, if_pos same] at goesOn
      cases goesOn
    · rw [untilSame, if_neg same] at goesOn
      cases goesOn
      rcases ih with ⟨settled, n, reached⟩
      exact ⟨settled, n + 1, reached⟩

end UntilSame

/-! ## A guard against repetitions -/

/-- What a round of a guarded loop gives: the end, or the state for the next
round; a round that is not counted goes past the guard. -/
inductive Round (σ : Type) where
  | ends (s : σ)
  | again (s : σ)
  | uncounted (s : σ)
  deriving DecidableEq

section Guarded

open Relation

variable {μ : Type} [DecidableEq μ] {round : σ → Round σ} {mark : σ → μ} {limit : Nat}

/-- A loop that gives up when so many rounds one after the other leave the
mark of the state as it is. -/
def guarded (round : σ → Round σ) (mark : σ → μ) (limit : Nat) :
    Nat → μ → Nat → σ → Option (Bool × σ)
  | 0, _, _, _ => none
  | fuel + 1, last, count, s =>
    match round s with
    | .ends s => some (true, s)
    | .uncounted s => guarded round mark limit fuel last count s
    | .again s =>
      if mark s = last then
        if count + 1 < limit then
          guarded round mark limit fuel last (count + 1) s
        else some (false, s)
      else guarded round mark limit fuel (mark s) 0 s

def Skips (round : σ → Round σ) (s next : σ) : Prop := round s = .uncounted next

def Counted (round : σ → Round σ) (s next : σ) : Prop :=
  ∃ before, ReflTransGen (Skips round) s before ∧ round before = .again next

def Finishes (round : σ → Round σ) (s : σ) : Prop :=
  ∃ before last, ReflTransGen (Skips round) s before ∧ round before = .ends last

/-- So many counted rounds leave the mark as it is. -/
inductive Stays (round : σ → Round σ) (mark : σ → μ) : Nat → σ → σ → Prop
  | refl (s : σ) : Stays round mark 0 s s
  | tail {n : Nat} {s last next : σ} : Stays round mark n s last →
      Counted round last next → mark next = mark last →
      Stays round mark (n + 1) s next

def Returns (round : σ → Round σ) (mark : σ → μ) (limit : Nat) (last : μ)
    (count : Nat) (s : σ) : Prop :=
  ∃ fuel r, guarded round mark limit fuel last count s = some r

variable {count : Nat} {s : σ}

theorem Returns.of_ends {last : μ} {r : σ}
    (ends : round s = .ends r) : Returns round mark limit last count s := by
  refine ⟨1, (true, r), ?_⟩
  rw [guarded, ends]

theorem Returns.of_skips {last : μ} {next : σ} (skips : ReflTransGen (Skips round) s next)
    (returns : Returns round mark limit last count next) :
    Returns round mark limit last count s := by
  induction skips using ReflTransGen.head_induction_on with
  | refl => exact returns
  | @head s middle skip _ ih =>
    rcases ih with ⟨fuel, r, result⟩
    refine ⟨fuel + 1, r, ?_⟩
    rw [guarded, show round s = .uncounted middle from skip]
    exact result

/-- A counted round after which the loop goes on or gives up. -/
theorem Returns.of_counted {last : μ} {next : σ} (counted : Counted round s next)
    (same : mark next = last → count + 1 < limit → Returns round mark limit last (count + 1) next)
    (other : mark next ≠ last → Returns round mark limit (mark next) 0 next) :
    Returns round mark limit last count s := by
  rcases counted with ⟨before, skips, again⟩
  apply Returns.of_skips skips
  by_cases unchanged : mark next = last
  · by_cases fewer : count + 1 < limit
    · rcases same unchanged fewer with ⟨fuel, r, result⟩
      refine ⟨fuel + 1, r, ?_⟩
      rw [guarded, again]
      dsimp only
      rw [if_pos unchanged, if_pos fewer, result]
    · refine ⟨1, (false, next), ?_⟩
      rw [guarded, again]
      dsimp only
      rw [if_pos unchanged, if_neg fewer]
  · rcases other unchanged with ⟨fuel, r, result⟩
    refine ⟨fuel + 1, r, ?_⟩
    rw [guarded, again]
    dsimp only
    rw [if_neg unchanged, result]

omit [DecidableEq μ] in
theorem Stays.shorter {n m : Nat} {last : σ} (stays : Stays round mark n s last) (fewer : m ≤ n) :
    ∃ there, Stays round mark m s there := by
  induction stays with
  | refl s =>
    obtain rfl : m = 0 := Nat.le_zero.mp fewer
    exact ⟨s, .refl s⟩
  | @tail n s last next before counted same ih =>
    rcases Nat.lt_or_ge n m with more | less
    · obtain rfl : m = n + 1 := Nat.le_antisymm fewer more
      exact ⟨next, .tail before counted same⟩
    · exact ih less

/-- The count goes up with every round that leaves the mark. -/
theorem Returns.of_stays {n : Nat} {there : σ}
    (stays : Stays round mark n s there) (fewer : count + n < limit)
    (returns : Returns round mark limit (mark there) (count + n) there) :
    Returns round mark limit (mark s) count s := by
  induction stays with
  | refl s => exact returns
  | @tail n s last next before counted same ih =>
    apply ih (by omega)
    refine Returns.of_counted counted (fun _ _ => ?_) fun differs => absurd same differs
    rw [← same]
    exact returns

theorem Returns.of_limit {last : σ}
    (stays : Stays round mark limit s last) (fewer : count < limit) :
    Returns round mark limit (mark s) count s := by
  have enough : limit - count - 1 + 1 ≤ limit := by omega
  rcases stays.shorter enough with ⟨there, shorter⟩
  cases shorter with
  | tail before counted same =>
    have sum : count + (limit - count - 1) + 1 = limit := by omega
    apply Returns.of_stays before (by omega)
    refine Returns.of_counted counted (fun _ less => ?_) fun differs => absurd same differs
    exact absurd less (by omega)

theorem Returns.of_reaches {last : σ} (reaches : ReflTransGen (Counted round) s last)
    (ends : Finishes round last ∨ ∃ there, Stays round mark limit last there)
    (fewer : count < limit) :
    Returns round mark limit (mark s) count s := by
  induction reaches using ReflTransGen.head_induction_on generalizing
      count with
  | refl =>
    rcases ends with ⟨before, r, skips, ended⟩ | ⟨there, stays⟩
    · exact Returns.of_skips skips (Returns.of_ends ended)
    · exact Returns.of_limit stays fewer
  | head counted _ ih =>
    refine Returns.of_counted counted (fun same less => ?_) fun _ =>
      ih (Nat.zero_lt_of_lt fewer)
    rw [← same]
    exact ih less

/-- What a run of the loop that returns has gone through. -/
theorem guarded_reaches {fuel : Nat} {start first base : σ} {r : Bool × σ}
    (reaches : ReflTransGen (Counted round) start first) (stays : Stays round mark count first base)
    (skips : ReflTransGen (Skips round) base s) (fewer : count < limit)
    (returns : guarded round mark limit fuel (mark base) count s = some r) :
    ∃ last, ReflTransGen (Counted round) start last ∧
      (Finishes round last ∨ ∃ there, Stays round mark limit last there) := by
  induction fuel generalizing count first base s with
  | zero => cases returns
  | succ fuel ih =>
    have toBase : ReflTransGen (Counted round) start base := by
      refine reaches.trans ?_
      clear returns fewer skips ih
      induction stays with
      | refl s => exact .refl
      | tail before counted same ih =>
        exact (ih reaches).tail counted
    rw [guarded] at returns
    cases next : round s with
    | ends last => exact ⟨base, toBase, .inl ⟨s, last, skips, next⟩⟩
    | uncounted there =>
      rw [next] at returns
      exact ih reaches stays (skips.tail next) fewer returns
    | again there =>
      have counted : Counted round base there := ⟨s, skips, next⟩
      rw [next] at returns
      dsimp only at returns
      by_cases same : mark there = mark base
      · have further := Stays.tail stays counted same
        rw [if_pos same] at returns
        by_cases less : count + 1 < limit
        · rw [if_pos less, ← same] at returns
          exact ih reaches further .refl less returns
        · obtain rfl : count + 1 = limit := by omega
          exact ⟨first, reaches, .inr ⟨there, further⟩⟩
      · rw [if_neg same] at returns
        exact ih (toBase.tail counted) (.refl there) .refl (Nat.zero_lt_of_lt fewer) returns

/-- The loop returns exactly if its counted rounds reach a state from which
the loop is done, or one whose mark they leave as often as the limit says. -/
theorem returns_iff (positive : 0 < limit) (s : σ) :
    Returns round mark limit (mark s) 0 s ↔ ∃ last, ReflTransGen (Counted round) s last ∧
        (Finishes round last ∨ ∃ there, Stays round mark limit last there) := by
  constructor
  · rintro ⟨fuel, r, result⟩
    exact guarded_reaches .refl (.refl s) .refl positive result
  · rintro ⟨last, reaches, ends⟩
    exact Returns.of_reaches reaches ends positive

theorem not_returns {Inv : σ → Prop}
    (goes : ∀ s, Inv s → ∃ next, round s = .again next ∧
      mark next ≠ mark s ∧ Inv next) (start : Inv s) :
    ¬ Returns round mark limit (mark s) 0 s := by
  rintro ⟨fuel, r, result⟩
  induction fuel generalizing s with
  | zero => cases result
  | succ fuel ih =>
    rcases goes s start with ⟨next, again, differs, later⟩
    rw [guarded, again] at result
    dsimp only at result
    rw [if_neg differs] at result
    exact ih later result

end Guarded

end Coast.TurnLoop
