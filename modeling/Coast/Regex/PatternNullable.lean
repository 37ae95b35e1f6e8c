import Coast.Regex.PatternProgress

/-!
# What the compiler takes for nullable

Every tree that is read has only closures whose operands the compiler does
not take for nullable.
-/

namespace Coast

open Reading

mutual

def Regex.Rejects : Regex → Prop
  | .terminal _ => True
  | .group _ body => body.Rejects
  | .closure _ _ operand => operand.Rejects ∧ operand.nullable = false
  | .nothing => True
  | .cat first rest => first.Rejects ∧ rest.Rejects

def Branches.Rejects : Branches → Prop
  | .one branch => branch.Rejects
  | .more branch rest => branch.Rejects ∧ rest.Rejects

end

namespace Reading

variable {α β : Type}

def Gives (P : α → Prop) (r : Reading α) : Prop := ∀ s a t, r s = some (.ok (a, t)) → P a

theorem Gives.bind {P : β → Prop} {Q : α → Prop} {first : Reading α} {rest : α → Reading β}
    (one : Gives Q first) (other : ∀ a, Q a → Gives P (rest a)) : Gives P (first >>= rest) := by
  intro s b u reads
  rcases bind_ok reads with ⟨a, t, here, later⟩
  exact other a (one s a t here) t b u later

theorem Gives.imp {P Q : α → Prop} {r : Reading α} (gives : Gives P r)
    (weaker : ∀ a, P a → Q a) : Gives Q r :=
  fun s a t reads => weaker a (gives s a t reads)

theorem Gives.after {P : β → Prop} (first : Reading α) {rest : α → Reading β}
    (other : ∀ a, Gives P (rest a)) : Gives P (first >>= rest) :=
  Gives.bind (Q := fun _ => True) (fun _ _ _ _ => trivial) fun a _ => other a

theorem Gives.pure {P : α → Prop} {a : α} (here : P a) : Gives P (pure a) := by
  intro s b t reads
  cases reads
  exact here

theorem Gives.stop {P : α → Prop} (why : Stop) : Gives P (Reading.stop why) := nofun

theorem Gives.ite {P : α → Prop} {c : Prop} [Decidable c] {one other : Reading α}
    (yes : c → Gives P one) (no : ¬c → Gives P other) : Gives P (if c then one else other) := by
  split
  · exact yes ‹_›
  · exact no ‹_›

end Reading

namespace Regex

def IsTerminal (r : Regex) : Prop := ∃ t, r = .terminal t

theorem readAtom_gives : Gives IsTerminal readAtom := Gives.after _ fun _ => .pure ⟨_, rfl⟩

theorem readEscape_gives : Gives IsTerminal readEscape := by
  refine Gives.after _ fun _ => Gives.after _ fun escaped =>
    Gives.after _ fun c => ?_
  cases escaped with
  | charClass => exact .pure ⟨_, rfl⟩
  | complex => exact .pure ⟨_, rfl⟩
  | backref =>
    exact Gives.after _ fun _ => Gives.ite (fun _ => .stop _) fun _ => .pure ⟨_, rfl⟩
  | error => exact .stop _
  | char value => exact Gives.after _ fun _ => readAtom_gives

theorem readClass_gives (fuel : Nat) : Gives IsTerminal (readClass fuel) := by
  refine Gives.after _ fun _ => Gives.after _ fun _ =>
    Gives.ite (fun _ => .stop _) fun _ => Gives.after _ fun _ => ?_
  refine Gives.ite (fun _ => ?_) fun _ => ?_
  · exact Gives.after _ fun _ => Gives.after _ fun _ => .pure ⟨_, rfl⟩
  · exact Gives.after _ fun _ => Gives.after _ fun _ => .pure ⟨_, rfl⟩

theorem readSimple_gives (fuel : Nat) : Gives IsTerminal (readSimple fuel) := by
  have node (t : Terminal) : Gives IsTerminal (step (·.skip 1) >>= fun _ =>
      Pure.pure (.terminal t)) := Gives.after _ fun _ => .pure ⟨t, rfl⟩
  refine Gives.after _ fun _ => Gives.ite (fun _ => node .eol) fun _ => ?_
  refine Gives.ite (fun _ => node .bol) fun _ => ?_
  refine Gives.ite (fun _ => node .any) fun _ => ?_
  refine Gives.ite (fun _ => readClass_gives fuel) fun _ => ?_
  refine Gives.ite (fun _ => .stop _) fun _ => ?_
  exact Gives.ite (fun _ => readEscape_gives) fun _ => readAtom_gives

/-- A property that passes from an operand to its closures, and from trees to
their row. -/
structure Extends (P : Regex → Prop) (operand : Regex) : Prop where
  closure : ∀ operator isGreedy, operand.nullable = false → P (.closure operator isGreedy operand)
  cat : ∀ {first rest}, P first → P rest → P (.cat first rest)

section

variable {P : Regex → Prop} {operand : Regex} (extends_ : Extends P operand)

include extends_

theorem Extends.copies {r last : Regex} (here : P r) (lastHere : P last)
    (n : Nat) : P (r.copies n last) := by
  induction n with
  | zero => exact lastHere
  | succ n ih => exact extends_.cat here ih

theorem Extends.repeated (here : P operand) (advances : operand.nullable = false) (minimum : Nat)
    (optional : PatternInput.Repetition) :
    P (operand.repeated minimum optional) := by
  match optional with
  | .unbounded =>
    have star := extends_.closure .star true advances
    exact extends_.copies here star minimum
  | .optional 0 => exact extends_.copies here here (minimum - 1)
  | .optional (optional + 1) =>
    have question := extends_.closure .question true advances
    exact extends_.copies here (extends_.copies question question optional) minimum

theorem readClosure_gives (here : P operand) : Gives P (readClosure operand) := by
  refine Gives.after _ fun _ => Gives.ite (fun _ => .pure here) fun _ => ?_
  refine Gives.after _ fun c => Gives.ite (fun _ => ?_) fun _ =>
    Gives.ite (fun _ => ?_) fun _ => .pure here
  · refine Gives.after _ fun _ => Gives.ite (fun _ => .stop _) fun advances => ?_
    rw [Bool.not_eq_true] at advances
    have closure := fun isGreedy =>
      extends_.closure (operatorOf c) isGreedy advances
    refine Gives.after _ fun _ => Gives.ite (fun _ => ?_) fun _ => ?_
    · exact Gives.after _ fun _ => .pure (closure false)
    · exact .pure (closure true)
  · refine Gives.ite (fun _ => .stop _) fun advances => ?_
    rw [Bool.not_eq_true] at advances
    refine Gives.after _ fun counts => Gives.ite (fun _ => .stop _) fun _ => ?_
    exact .pure (extends_.repeated here advances counts.1 counts.2)

end

theorem extends_rejects {operand : Regex} (rejects : operand.Rejects) : Extends Rejects operand :=
  ⟨fun _ _ advances => ⟨rejects, advances⟩, fun first rest => ⟨first, rest⟩⟩

section

variable {inner : Reading Regex} (gives : Gives Rejects inner) (fuel : Nat)

include gives

theorem readPiece_gives : Gives Rejects (readPiece inner fuel) :=
  Gives.after _ fun _ => Gives.bind
    (Gives.ite (fun _ => gives) fun _ => (readSimple_gives fuel).imp (by
      rintro _ ⟨t, rfl⟩
      trivial))
    fun _ rejects => readClosure_gives (extends_rejects rejects) rejects

theorem readPieces_gives (turns : Nat) {last : Regex} (rejects : last.Rejects) :
    Gives (fun r => ∀ tree, r = some tree → tree.Rejects) (readPieces inner fuel turns last) := by
  induction turns generalizing last with
  | zero => exact fun _ _ _ reads => nomatch reads
  | succ turns ih =>
    refine Gives.after _ fun _ => Gives.ite (fun _ => ?_) fun _ => ?_
    · refine Gives.bind (readPiece_gives gives fuel) fun piece here => ?_
      refine Gives.ite (fun _ => ?_) fun _ => ?_
      · refine Gives.after _ fun _ => Gives.ite (fun _ => ?_) fun _ => ?_
        · exact Gives.after _ fun _ => .stop _
        · exact .pure nofun
      · refine Gives.bind (ih here) fun r there => .pure ?_
        intro tree same
        obtain ⟨rest, rfl, rfl⟩ := Option.map_eq_some_iff.mp same
        exact ⟨rejects, there rest rfl⟩
    · refine .pure ?_
      rintro _ ⟨rfl⟩
      exact rejects

theorem readBranch_gives :
    Gives (fun r => ∀ tree, r = some tree → tree.Rejects) (readBranch inner fuel) := by
  refine Gives.after _ fun _ => Gives.ite (fun _ => ?_) fun _ => .pure ?_
  · exact Gives.bind (readPiece_gives gives fuel) fun _ here =>
      readPieces_gives gives fuel fuel here
  · rintro _ ⟨rfl⟩
    trivial

theorem readBranches_gives (turns : Nat) {first : Option Regex}
    (rejects : ∀ tree, first = some tree → tree.Rejects) :
    Gives (fun r => ∀ tree, r = some tree → tree.Rejects)
      (readBranches inner fuel turns first) := by
  induction turns generalizing first with
  | zero => exact fun _ _ _ reads => nomatch reads
  | succ turns ih =>
    refine Gives.after _ fun _ => Gives.ite (fun _ => ?_) fun _ => .pure ?_
    · refine Gives.after _ fun _ => Gives.bind (readBranch_gives gives fuel) fun second here => ?_
      refine Gives.bind (ih here) fun rest there =>
        .pure ?_
      intro tree same
      obtain ⟨branch, rfl, same⟩ := Option.bind_eq_some_iff.mp same
      obtain ⟨branches, rfl, rfl⟩ := Option.map_eq_some_iff.mp same
      exact ⟨rejects branch rfl, there branches rfl⟩
    · intro tree same
      obtain ⟨branch, rfl, rfl⟩ := Option.map_eq_some_iff.mp same
      exact rejects branch rfl

end

theorem readGroup_gives (fuel : Nat) : Gives Rejects (readGroup fuel) := by
  induction fuel with
  | zero => exact fun _ _ _ reads => nomatch reads
  | succ fuel gives =>
    refine Gives.after _ fun number => Gives.after _ fun _ =>
      Gives.bind (readBranch_gives gives fuel) fun first here =>
      Gives.bind (readBranches_gives gives fuel fuel here)
        fun body there => Gives.after _ fun _ =>
          Gives.ite (fun _ => Gives.after _ fun _ => ?_) fun _ => .stop _
    cases body with
    | none => exact .stop _
    | some body => exact .pure (there body rfl)

/-- What can match nothing is not the operand of a closure. -/
theorem readsAs_rejects {pat : Bytes} {tree : Branches}
    (reads : ReadsAs pat (.ok tree)) : tree.Rejects := by
  rcases reads with ⟨fuel, result, reads, isTree⟩
  have gives := readGroup_gives fuel
  have whole : Gives Branches.Rejects (readPattern fuel) := by
    refine Gives.bind (Gives.after _ fun _ =>
      Gives.bind (readBranch_gives gives fuel) fun first here =>
      Gives.bind (readBranches_gives gives fuel fuel here)
        fun body there => ?_) fun body rejects => Gives.after _ fun _ =>
          Gives.ite (fun _ => .pure rejects) fun _ => .stop _
    cases body with
    | none => exact .stop _
    | some body => exact .pure (there body rfl)
  cases result with
  | error stop => cases isTree
  | ok result =>
    cases isTree
    exact whole _ _ _ reads

end Regex

end Coast
