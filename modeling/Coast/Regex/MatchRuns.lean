import Coast.Regex.BackRefStacks
import Coast.Regex.MatchSteps

/-!
# What holds of every run that returns

A relation between the index, the state and what a run returns holds of every
run, when it is kept by what the engine does at one node.
-/

namespace Coast

open Nat

namespace Match

variable {α β : Type}

variable {st after : MatchState}

theorem bind_ok {first : Match α} {rest : α → Match β}
    {b : β} (returns : (first >>= rest) st = some (.ok b, after)) :
    ∃ a mid, first st = some (.ok a, mid) ∧ rest a mid = some (.ok b, after) := by
  change Match.bind first rest st = _ at returns
  rw [Match.bind] at returns
  rcases Option.bind_eq_some_iff.mp returns with ⟨⟨_ | a, mid⟩, here, later⟩
  · cases later
  · exact ⟨a, mid, here, later⟩

theorem pure_ok {a b : α} (returns : (pure a : Match α) st = some (.ok b, after)) :
    b = a ∧ after = st := by
  cases returns
  exact ⟨rfl, rfl⟩

theorem modify_ok {f : MatchState → MatchState} {rest : Unit → Match β} {b : β}
    (returns : (modify f >>= rest) st = some (.ok b, after)) :
    rest () (f st) = some (.ok b, after) := returns

theorem read_ok {f : MatchState → Except MatchExit α}
    {a : α} (returns : read f st = some (.ok a, after)) :
    f st = .ok a ∧ after = st := by
  rcases Prod.mk.inj (Option.some.inj returns) with ⟨looks, same⟩
  exact ⟨looks, same.symm⟩

end Match

namespace RE

open Match

variable {re : RE}

/-- What one step of the engine keeps. -/
structure Closed (re : RE) (Rel : Nat → MatchState → Option Nat → MatchState → Prop) : Prop where
  found : ∀ idx st, Rel idx st (some idx) st
  failed : ∀ idx st, Rel idx st none st
  consumed : ∀ {opcode opdata idx idxNew st r after},
    re.consume opcode opdata idx st = .ok (some idxNew) → Rel idxNew st r after → Rel idx st r after
  opened : ∀ {which idx st idxNew after}, Rel idx (st.pushStart which idx) (some idxNew) after →
      Rel idx st (some idxNew) (after.setStart which idx)
  notOpened : ∀ {which idx st after},
    Rel idx (st.pushStart which idx) none after → Rel idx st none (after.popStart which)
  closed : ∀ {which idx st idxNew after}, Rel idx (st.pushEnd which idx) (some idxNew) after →
      Rel idx st (some idxNew) (after.setEnd which idx)
  notClosed : ∀ {which idx st after},
    Rel idx (st.pushEnd which idx) none after → Rel idx st none (after.popEnd which)
  orElse : ∀ {idx st mid r after}, Rel idx st none mid → Rel idx mid r after → Rel idx st r after
  andThen : ∀ {idx st idxNew mid r after},
    Rel idx st (some idxNew) mid → Rel idxNew mid r after → Rel idx st r after

def Keeps (Rel : Nat → MatchState → Option Nat → MatchState → Prop)
    (idx : Nat) (m : Match (Option Nat)) : Prop :=
  ∀ st r after, m st = some (.ok r, after) → Rel idx st r after

section

variable {Rel : Nat → MatchState → Option Nat → MatchState → Prop}
  {idx : Nat} {m : Match (Option Nat)}

theorem keeps_pure_none (closed : re.Closed Rel) : Keeps Rel idx (pure none) := by
  intro st r after returns
  rcases pure_ok returns with ⟨rfl, rfl⟩
  exact closed.failed idx _

theorem keeps_exit (e : MatchExit) : Keeps Rel idx (.exit e) := by
  intro st r after returns
  cases returns

theorem keeps_isBranch {i : Int} {rest : Bool → Match (Option Nat)}
    (then_ : ∀ several, Keeps Rel idx (rest several)) :
    Keeps Rel idx (re.isBranch i >>= rest) := by
  intro st r after returns
  rcases bind_ok returns with ⟨several, mid, here, later⟩
  have same : mid = st := by
    rw [isBranch] at here
    rcases there : re.nodeAt i with _ | node
    · rw [there] at here
      cases here
    · rw [there] at here
      exact (pure_ok here).2
  rcases same with rfl
  exact then_ several _ r after later

theorem Keeps.orElse {rest : Match (Option Nat)} (closed : re.Closed Rel) (first : Keeps Rel idx m)
    (second : Keeps Rel idx rest) :
    Keeps Rel idx (m >>= fun
      | some idxNew => pure (some idxNew)
      | none => rest) := by
  intro st r after returns
  rcases bind_ok returns with ⟨result, mid, here, later⟩
  cases result with
  | some idxNew =>
    rcases pure_ok later with ⟨rfl, rfl⟩
    exact first st _ _ here
  | none => exact closed.orElse (first st _ _ here) (second mid _ _ later)

theorem Keeps.andThen {rest : Nat → Match (Option Nat)} (closed : re.Closed Rel)
    (first : Keeps Rel idx m) (second : ∀ idxNew, Keeps Rel idxNew (rest idxNew)) :
    Keeps Rel idx (m >>= fun
      | some idxNew => rest idxNew
      | none => pure none) := by
  intro st r after returns
  rcases bind_ok returns with ⟨result, mid, here, later⟩
  cases result with
  | some idxNew =>
    exact closed.andThen (first st _ _ here) (second idxNew mid _ _ later)
  | none =>
    rcases pure_ok later with ⟨rfl, rfl⟩
    exact first st _ _ here

end

/-- The relation holds of all functions of the matcher. -/
structure AllKeep (re : RE) (Rel : Nat → MatchState → Option Nat → MatchState → Prop)
    (fuel : Nat) : Prop where
  matchNodes : ∀ firstNode lastNode idx, Keeps Rel idx (re.matchNodes fuel firstNode lastNode idx)
  nodes : ∀ node lastNode idx, Keeps Rel idx (re.nodes fuel node lastNode idx)
  maybe : ∀ node next idx, Keeps Rel idx (re.reluctantMaybe fuel node next idx)
  plus : ∀ node next idx, Keeps Rel idx (re.reluctantPlus fuel node next idx)
  star : ∀ node next idx, Keeps Rel idx (re.reluctantStar fuel node next idx)
  tries : ∀ node idx, Keeps Rel idx (re.tryBranches fuel node idx)

section

variable {Rel : Nat → MatchState → Option Nat → MatchState → Prop}
  (closed : re.Closed Rel) {fuel : Nat} (all : re.AllKeep Rel fuel)

include closed all

theorem keeps_open (which : Nat) (next : Int) (idx : Nat) :
    Keeps Rel idx (do
      .modify (·.pushStart which idx)
      match ← re.matchNodes fuel next (-1) idx with
      | some idxNew =>
        .modify (·.setStart which idx)
        pure (some idxNew)
      | none =>
        .modify (·.popStart which)
        pure none) := by
  intro st r after returns
  rcases bind_ok (modify_ok returns) with ⟨result, mid, here, later⟩
  have inner := all.matchNodes next (-1) idx _ _ _ here
  cases result with
  | some idxNew =>
    cases later
    exact closed.opened inner
  | none =>
    cases later
    exact closed.notOpened inner

theorem keeps_close (which : Nat) (next : Int) (idx : Nat) :
    Keeps Rel idx (do
      .modify (·.pushEnd which idx)
      match ← re.matchNodes fuel next (-1) idx with
      | some idxNew =>
        .modify (·.setEnd which idx)
        pure (some idxNew)
      | none =>
        .modify (·.popEnd which)
        pure none) := by
  intro st r after returns
  rcases bind_ok (modify_ok returns) with ⟨result, mid, here, later⟩
  have inner := all.matchNodes next (-1) idx _ _ _ here
  cases result with
  | some idxNew =>
    cases later
    exact closed.closed inner
  | none =>
    cases later
    exact closed.notClosed inner

omit closed in
theorem keeps_branch (node next lastNode : Int) (idx : Nat) :
    Keeps Rel idx (do
      if ← re.isBranch next then re.tryBranches fuel node idx
      else re.nodes fuel (node + 1) lastNode idx) := by
  apply keeps_isBranch
  rintro (_ | _)
  · exact all.nodes _ _ _
  · exact all.tries _ _

theorem keeps_consume (opcode : Opcode) (opdata : OpData) (next lastNode : Int) (idx : Nat) :
    Keeps Rel idx (do
      match ← .read (re.consume opcode opdata idx) with
      | some idx => re.nodes fuel next lastNode idx
      | none => pure none) := by
  intro st r after returns
  rcases bind_ok returns with ⟨result, mid, here, later⟩
  rcases read_ok here with ⟨looks, rfl⟩
  cases result with
  | some idxNew =>
    exact closed.consumed looks (all.nodes _ _ _ _ _ _ later)
  | none =>
    rcases pure_ok later with ⟨rfl, rfl⟩
    exact closed.failed idx _

theorem keeps_nodes (node lastNode : Int) (idx : Nat) :
    Keeps Rel idx (re.nodes (fuel + 1) node lastNode idx) := by
  rw [nodes]
  split
  · split
    · exact keeps_exit _
    · dsimp only
      split
      · exact keeps_exit _
      · exact all.maybe _ _ _
      · exact all.plus _ _ _
      · exact all.star _ _ _
      · exact keeps_open closed all _ _ idx
      · exact keeps_close closed all _ _ idx
      · exact keeps_branch all _ _ _ idx
      · intro st r after returns
        cases returns
        exact closed.found idx _
      · exact keeps_consume closed all _ _ _ _ idx
  · exact keeps_exit _

theorem keeps_tries (node : Int) (idx : Nat) :
    Keeps Rel idx (re.tryBranches (fuel + 1) node idx) := by
  rw [tryBranches]
  refine (all.matchNodes _ _ idx).orElse closed ?_
  split
  · exact keeps_exit _
  · dsimp only
    split
    · exact keeps_pure_none closed
    · apply keeps_isBranch
      rintro (_ | _)
      · exact keeps_pure_none closed
      · exact all.tries _ _

theorem allKeep_succ : re.AllKeep Rel (fuel + 1) where
  matchNodes firstNode lastNode idx := by
    rw [matchNodes]
    exact all.nodes _ _ _
  nodes := keeps_nodes closed all
  maybe node next idx := by
    rw [reluctantMaybe]
    exact (all.matchNodes _ _ idx).orElse closed
      ((all.matchNodes _ _ idx).andThen closed fun idxNew => all.matchNodes _ _ idxNew)
  plus node next idx := by
    rw [reluctantPlus]
    exact (all.matchNodes _ _ idx).andThen closed fun idxNew =>
      (all.matchNodes _ _ idxNew).orElse closed (all.plus _ _ idxNew)
  star node next idx := by
    rw [reluctantStar]
    exact (all.matchNodes _ _ idx).orElse closed
      ((all.matchNodes _ _ idx).andThen closed fun idxNew => all.star _ _ idxNew)
  tries := keeps_tries closed all

end

theorem Closed.all {Rel : Nat → MatchState → Option Nat → MatchState → Prop}
    (closed : re.Closed Rel) (fuel : Nat) : re.AllKeep Rel fuel := by
  induction fuel with
  | zero =>
    constructor
    all_goals
      intros
      intro st r after returns
      simp only [matchNodes, nodes, reluctantMaybe, reluctantPlus,
        reluctantStar, tryBranches, endless] at returns
      cases returns
  | succ fuel ih => exact allKeep_succ closed ih

/-! ## A larger bound -/

def Below {α : Type} (m m' : Match α) : Prop :=
  ∀ st result, m st = some result → m' st = some result

theorem Below.refl {α : Type} (m : Match α) : Below m m := fun _ _ => id

theorem below_endless {α : Type} (m : Match α) : Below .endless m := by
  intro st result returns
  cases returns

theorem Below.bind {α β : Type} {m m' : Match α} {f f' : α → Match β}
    (first : Below m m') (rest : ∀ a, Below (f a) (f' a)) :
    Below (m >>= f) (m' >>= f') := by
  intro st result returns
  rcases Option.bind_eq_some_iff.mp returns with ⟨⟨a, mid⟩, here, later⟩
  refine Option.bind_eq_some_iff.mpr ⟨(a, mid), first st _ here, ?_⟩
  cases a with
  | error exit => exact later
  | ok a => exact rest a mid result later

/-- Two engines with the same program, for which every node does the same. -/
structure Alike (re re' : RE) : Prop where
  program : re'.fProgram = re.fProgram
  consume : ∀ opcode opdata idx st,
    re'.consume opcode opdata idx st = re.consume opcode opdata idx st

theorem Alike.refl (re : RE) : Alike re re := ⟨rfl, fun _ _ _ _ => rfl⟩

/-- The functions of one engine with a bound give what those of another one
give with another bound. -/
structure AllBelow (re re' : RE) (fuel fuel' : Nat) : Prop where
  matchNodes : ∀ firstNode lastNode idx,
    Below (re.matchNodes fuel firstNode lastNode idx) (re'.matchNodes fuel' firstNode lastNode idx)
  nodes : ∀ node lastNode idx,
    Below (re.nodes fuel node lastNode idx) (re'.nodes fuel' node lastNode idx)
  maybe : ∀ node next idx,
    Below (re.reluctantMaybe fuel node next idx) (re'.reluctantMaybe fuel' node next idx)
  plus : ∀ node next idx,
    Below (re.reluctantPlus fuel node next idx) (re'.reluctantPlus fuel' node next idx)
  star : ∀ node next idx,
    Below (re.reluctantStar fuel node next idx) (re'.reluctantStar fuel' node next idx)
  tries : ∀ node idx, Below (re.tryBranches fuel node idx) (re'.tryBranches fuel' node idx)

theorem below_option {α : Type} {f f' : Nat → Match α} {g g' : Match α}
    (some_ : ∀ idx, Below (f idx) (f' idx)) (none_ : Below g g') (r : Option Nat) :
    Below (match r with | some idx => f idx | none => g)
      (match r with | some idx => f' idx | none => g') := by
  cases r with
  | some idx => exact some_ idx
  | none => exact none_

theorem below_ite {α : Type} {c : Prop} [Decidable c] {f f' g g' : Match α}
    (yes : Below f f') (no : Below g g') :
    Below (if c then f else g) (if c then f' else g') := by
  split
  · exact yes
  · exact no

section

variable {re' : RE} {fuel fuel' : Nat} (alike : re.Alike re') (below : re.AllBelow re' fuel fuel')

include alike

theorem Alike.nodeAt (i : Int) : re'.nodeAt i = re.nodeAt i := by
  rw [RE.nodeAt, RE.nodeAt, alike.program]

theorem Alike.isBranch (i : Int) : re'.isBranch i = re.isBranch i := by
  rw [RE.isBranch, RE.isBranch, alike.nodeAt]

include below

theorem below_nodes (node lastNode : Int) (idx : Nat) :
    Below (re.nodes (fuel + 1) node lastNode idx) (re'.nodes (fuel' + 1) node lastNode idx) := by
  rw [nodes, nodes, alike.nodeAt]
  apply below_ite
  · cases re.nodeAt node with
    | none => exact .refl _
    | some here =>
      dsimp only
      split
      · exact .refl _
      · exact below.maybe _ _ _
      · exact below.plus _ _ _
      · exact below.star _ _ _
      · exact Below.bind (.refl _) fun _ =>
          (below.matchNodes _ _ _).bind (below_option (fun _ => .refl _) (.refl _))
      · exact Below.bind (.refl _) fun _ =>
          (below.matchNodes _ _ _).bind (below_option (fun _ => .refl _) (.refl _))
      · rw [alike.isBranch]
        exact Below.bind (.refl _) fun _ =>
          below_ite (below.tries _ _) (below.nodes _ _ _)
      · exact .refl _
      · rw [funext (alike.consume _ _ _)]
        exact Below.bind (.refl _) (below_option (fun _ => below.nodes _ _ _) (.refl _))
  · exact .refl _

theorem below_tries (node : Int) (idx : Nat) :
    Below (re.tryBranches (fuel + 1) node idx) (re'.tryBranches (fuel' + 1) node idx) := by
  rw [tryBranches, tryBranches, alike.nodeAt]
  refine (below.matchNodes _ _ _).bind (below_option (fun _ => .refl _) ?_)
  cases re.nodeAt node with
  | none => exact .refl _
  | some here =>
    dsimp only
    rw [alike.isBranch]
    exact below_ite (.refl _) (Below.bind (.refl _) fun _ =>
      below_ite (below.tries _ _) (.refl _))

theorem allBelow_succ : re.AllBelow re' (fuel + 1) (fuel' + 1) where
  matchNodes firstNode lastNode idx := by
    rw [matchNodes, matchNodes, alike.program]
    exact below.nodes _ _ _
  nodes := below_nodes alike below
  maybe node next idx := by
    rw [reluctantMaybe, reluctantMaybe]
    exact (below.matchNodes _ _ _).bind (below_option (fun _ => .refl _)
      ((below.matchNodes _ _ _).bind (below_option (fun _ => below.matchNodes _ _ _) (.refl _))))
  plus node next idx := by
    rw [reluctantPlus, reluctantPlus]
    exact (below.matchNodes _ _ _).bind (below_option (fun _ =>
      (below.matchNodes _ _ _).bind (below_option (fun _ => .refl _) (below.plus _ _ _))) (.refl _))
  star node next idx := by
    rw [reluctantStar, reluctantStar]
    exact (below.matchNodes _ _ _).bind (below_option (fun _ => .refl _)
      ((below.matchNodes _ _ _).bind (below_option (fun _ => below.star _ _ _) (.refl _))))
  tries := below_tries alike below

end

theorem allBelow {re' : RE} (alike : re.Alike re') (fuel more : Nat) :
    re.AllBelow re' fuel (fuel + more) := by
  induction fuel with
  | zero =>
    constructor
    all_goals
      intros
      simp only [matchNodes, nodes, reluctantMaybe, reluctantPlus, reluctantStar, tryBranches]
      exact below_endless _
  | succ fuel ih =>
    rw [add_right_comm]
    exact allBelow_succ alike ih

variable {st : MatchState}

theorem matchNodes_below {fuel : Nat} {firstNode lastNode : Int} {idx : Nat}
    {result : Except MatchExit (Option Nat) × MatchState}
    (returns : re.matchNodes fuel firstNode lastNode idx st = some result) :
    re.matchNodes (fuel + 1) firstNode lastNode idx st = some result :=
  (allBelow (Alike.refl re) fuel 1).matchNodes _ _ _ st result returns

theorem matchNodes_settles {fuel : Nat} {firstNode lastNode : Int} {idx : Nat}
    {result : Except MatchExit (Option Nat) × MatchState}
    (returns : re.matchNodes fuel firstNode lastNode idx st = some result) :
    Fuel.Settles (fun fuel => re.matchNodes fuel firstNode lastNode idx st)
      result :=
  Fuel.settles_of_step (fun _ _ => matchNodes_below) returns

theorem consume_forward {opcode : Opcode} {opdata : OpData} {idx idxNew : Nat}
    (matched : re.consume opcode opdata idx st = .ok (some idxNew)) :
    idx ≤ idxNew ∧ (idx ≤ re.fSearch.length → idxNew ≤ re.fSearch.length) := by
  have condition {c : Bool} (same : (if c then some idx else none) = some idxNew) :
      idx ≤ idxNew ∧ (idx ≤ re.fSearch.length → idxNew ≤ re.fSearch.length) := by
    split at same
    · cases same
      exact ⟨le_refl _, id⟩
    · cases same
  have taken {c : Bool} {n : Nat} (inside : c = true → idx + n ≤ re.fSearch.length)
      (same : (if c then some (idx + n) else none) = some idxNew) :
      idx ≤ idxNew ∧ (idx ≤ re.fSearch.length → idxNew ≤ re.fSearch.length) := by
    split at same
    · rename_i holds
      cases same
      exact ⟨le_add_right _ _, fun _ => inside holds⟩
    · cases same
  cases opcode with
  | opBackref =>
    rw [consume, matchBackref] at matched
    split at matched
    · split at matched
      · cases matched
        exact ⟨le_refl _, id⟩
      · split at matched
        · cases matched
        · dsimp only at matched
          split at matched
          · cases matched
          · rename_i inside
            exact taken (fun _ => not_lt.mp inside) (Except.ok.inj matched)
    · cases matched
  | opBol => exact condition (Except.ok.inj matched)
  | opEol => exact condition (Except.ok.inj matched)
  | opBow => exact condition (Except.ok.inj matched)
  | opAny =>
    refine taken (fun holds => ?_) (Except.ok.inj matched)
    rw [matchAny, Bool.and_eq_true, decide_eq_true_eq] at holds
    exact holds.1
  | opAnyOf =>
    refine taken (fun holds => ?_) (Except.ok.inj matched)
    rw [matchAnyOf, Bool.and_eq_true, decide_eq_true_eq] at holds
    exact holds.1
  | opAtom =>
    refine taken (fun holds => ?_) (Except.ok.inj matched)
    rw [matchAtom, Bool.and_eq_true, decide_eq_true_eq] at holds
    rw [add_comm]
    exact holds.1
  | _ =>
    cases matched
    exact ⟨le_refl _, id⟩

/-- A match goes forward in the subject, and keeps a start that is set. -/
structure Forward (re : RE) (idx : Nat) (st : MatchState) (r : Option Nat)
    (after : MatchState) : Prop where
  forward : ∀ idxNew ∈ r, idx ≤ idxNew ∧ (idx ≤ re.fSearch.length → idxNew ≤ re.fSearch.length)
  keeps : ∀ which i, (st.register which).1 = some i → (after.register which).1 = some i

theorem register_setStart {which which' i j : Nat} (isSet : (st.register which).1 = some i) :
    ((st.setStart which' j).register which).1 = some i := by
  rcases here : st.register which' with ⟨_ | start, stop⟩
  · rw [MatchState.setStart, here]
    rw [MatchState.register, getD_writeSlot, ← MatchState.register]
    split
    · rename_i same
      rw [same, here] at isSet
      cases isSet
    · exact isSet
  · rw [MatchState.setStart, here]
    exact isSet

theorem register_setEnd {which which' i j : Nat} (isSet : (st.register which).1 = some i) :
    ((st.setEnd which' j).register which).1 = some i := by
  rcases here : st.register which' with ⟨start, _ | stop⟩
  · rw [MatchState.setEnd, here]
    rw [MatchState.register, getD_writeSlot, ← MatchState.register]
    split
    · rename_i same
      rw [same, here] at isSet
      exact isSet
    · exact isSet
  · rw [MatchState.setEnd, here]
    exact isSet

/-- Matching moves forwards only. -/
theorem closed_forward (re : RE) : re.Closed (re.Forward) where
  found idx st := by
    refine ⟨?_, fun _ _ => id⟩
    rintro _ ⟨rfl⟩
    exact ⟨le_refl _, id⟩
  failed idx st := ⟨nofun, fun _ _ => id⟩
  consumed matched rest := by
    have taken := consume_forward matched
    refine ⟨fun idxLast member => ?_, rest.keeps⟩
    have later := rest.forward idxLast member
    exact ⟨le_trans taken.1 later.1, fun inside => later.2 (taken.2 inside)⟩
  opened rest :=
    ⟨rest.forward, fun which i isSet =>
      register_setStart (rest.keeps which i isSet)⟩
  notOpened rest := ⟨nofun, rest.keeps⟩
  closed rest :=
    ⟨rest.forward, fun which i isSet =>
      register_setEnd (rest.keeps which i isSet)⟩
  notClosed rest := ⟨nofun, rest.keeps⟩
  orElse first rest :=
    ⟨rest.forward, fun which i isSet =>
      rest.keeps which i (first.keeps which i isSet)⟩
  andThen first rest := by
    have taken := first.forward _ rfl
    refine ⟨fun idxLast member => ?_, fun which i isSet =>
      rest.keeps which i (first.keeps which i isSet)⟩
    have later := rest.forward idxLast member
    exact ⟨le_trans taken.1 later.1, fun inside => later.2 (taken.2 inside)⟩

end RE

end Coast
