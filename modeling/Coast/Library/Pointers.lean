import Coast.Library.Fuel
import Mathlib.Data.Fintype.Card

/-!
# Pointers that are assigned one after the other

Each element has at most one pointer to another.  An assignment closes a cycle
where the new target leads back; at the end there is no cycle exactly if
each cycle that was closed has been opened.
-/

namespace Coast.Pointers

open Function Fuel

variable {α β : Type}

/-- The first result of `f` along the chain. -/
def find (next : α → Option α) (f : α → Option β) : Nat → Option α → Option (Option β)
  | _, none => some none
  | 0, some _ => none
  | fuel + 1, some a =>
    match f a with
    | some b => some (some b)
    | none => find next f fuel (next a)

/-- The chain ends, or has an element with a result. -/
inductive Ends (next : α → Option α) (f : α → Option β) : Option α → Prop
  | end_ : Ends next f none
  | found {a : α} {b : β} : f a = some b → Ends next f (some a)
  | later {a : α} : f a = none → Ends next f (next a) → Ends next f (some a)

variable {next next' : α → Option α} {f : α → Option β} {a b c : α}

theorem Ends.settles {start : Option α} (ends : Ends next f start) :
    ∃ result, Settles (fun fuel => find next f fuel start) result := by
  induction ends with
  | end_ =>
    refine ⟨none, (Settles.const none).congr fun fuel => ?_⟩
    cases fuel <;> rfl
  | @found a b here =>
    refine ⟨some b, (Settles.const (some b)).succ rfl fun fuel => ?_⟩
    rw [find, here]
  | later notHere _ ih =>
    rcases ih with ⟨result, settles⟩
    refine ⟨result, settles.succ rfl fun fuel => ?_⟩
    rw [find, notHere]

theorem ends_of_find {fuel : Nat} {start : Option α} {result : Option β}
    (returns : find next f fuel start = some result) :
    Ends next f start := by
  induction fuel generalizing start with
  | zero =>
    cases start with
    | none => exact .end_
    | some a => cases returns
  | succ fuel ih =>
    cases start with
    | none => exact .end_
    | some a =>
      cases here : f a with
      | some b => exact .found here
      | none =>
        rw [find, here] at returns
        exact .later here (ih returns)

/-- The search behind an element comes to an end exactly if the pointers lead to
one from where it does not go on. -/
theorem ends_iff : Ends next f (next a) ↔
    ∃ c, Leads next a c ∧ ∀ d, next c = some d → (f d).isSome := by
  constructor
  · generalize isStart : next a = start
    intro ends
    induction ends generalizing a with
    | end_ =>
      refine ⟨a, .refl, fun d goesOn => ?_⟩
      rw [isStart] at goesOn
      cases goesOn
    | found here =>
      refine ⟨a, .refl, fun d goesOn => ?_⟩
      rw [isStart] at goesOn
      cases goesOn
      rw [here]
      rfl
    | later notHere _ ih =>
      rcases ih rfl with ⟨c, leads, stops⟩
      exact ⟨c, leads.head isStart, stops⟩
  · rintro ⟨c, leads, stops⟩
    induction leads using Relation.ReflTransGen.head_induction_on with
    | refl =>
      cases goesOn : next c with
      | none => exact .end_
      | some d =>
        rcases Option.isSome_iff_exists.mp (stops d goesOn) with ⟨b, here⟩
        exact .found here
    | @head a d step rest ih =>
      rw [step]
      cases here : f d with
      | some b => exact .found here
      | none => exact .later here ih

def OnCycle (next : α → Option α) (a : α) : Prop := ∃ b, next a = some b ∧ Leads next b a

def Acyclic (next : α → Option α) : Prop := ∀ a, ¬ OnCycle next a

theorem OnCycle.back (cycle : OnCycle next a) (leads : Leads next a b) : Leads next b a := by
  rcases cycle with ⟨first, goesOn, back⟩
  induction leads with
  | refl => exact .refl
  | tail _ step ih =>
    rcases Relation.ReflTransGen.cases_head ih with same | ⟨d, step', rest⟩
    · subst same
      rw [goesOn] at step
      cases step
      exact back
    · rw [step] at step'
      cases step'
      exact rest

theorem OnCycle.leads (cycle : OnCycle next a) (leads : Leads next a b) : OnCycle next b := by
  rcases Relation.ReflTransGen.cases_head (cycle.back leads) with same | ⟨d, step, rest⟩
  · subst same
    exact cycle
  · exact ⟨d, step, rest.trans leads⟩

theorem leads_congr (leads : Leads next a b)
    (same : ∀ c, Leads next a c → Leads next c b → c ≠ b → next' c = next c) : Leads next' a b := by
  induction leads using Relation.ReflTransGen.head_induction_on with
  | refl => exact .refl
  | @head a d step rest ih =>
    by_cases here : a = b
    · subst here
      exact .refl
    · have first := (same a .refl (rest.head step) here).trans step
      refine .head first (ih ?_)
      intro c ahead back other
      exact same c (ahead.head step) back other

theorem OnCycle.congr (cycle : OnCycle next a)
    (same : ∀ c, Leads next a c → Leads next c a → next' c = next c) :
    OnCycle next' a := by
  rcases cycle with ⟨b, goesOn, back⟩
  refine ⟨b, (same a .refl .refl).trans goesOn, leads_congr back ?_⟩
  intro c ahead behind _
  exact same c (ahead.head goesOn) behind

/-- With finitely many pointers and no cycle every chain ends. -/
theorem Acyclic.ends (acyclic : Acyclic next) (finite : {a | next a ≠ none}.Finite)
    (f : α → Option β) (start : Option α) : Ends next f start := by
  have : Finite {a | next a ≠ none} := finite
  let below (x y : {a | next a ≠ none}) : Prop :=
    Relation.TransGen (fun u v => next u = some v) y.1 x.1
  have trans : IsTrans _ below := ⟨fun x y z xy yz => yz.trans xy⟩
  have irrefl : Std.Irrefl below := by
    constructor
    intro x cycle
    rcases Relation.TransGen.head'_iff.mp cycle with ⟨b, goesOn, back⟩
    exact acyclic x.1 ⟨b, goesOn, back⟩
  have wellFounded := Finite.wellFounded_of_trans_of_irrefl below
  have endsOf : ∀ x : {a | next a ≠ none}, Ends next f (some x.1) := by
    intro x
    induction x using wellFounded.induction with
    | _ x ih =>
      cases here : f x.1 with
      | some b => exact .found here
      | none =>
        refine .later here ?_
        cases goesOn : next x.1 with
        | none => exact .end_
        | some y =>
          by_cases last : next y = none
          · cases there : f y with
            | some b => exact .found there
            | none =>
              refine .later there ?_
              rw [last]
              exact .end_
          · exact ih ⟨y, last⟩ (.single goesOn)
  cases start with
  | none => exact .end_
  | some a =>
    by_cases last : next a = none
    · cases here : f a with
      | some b => exact .found here
      | none =>
        refine .later here ?_
        rw [last]
        exact .end_
    · exact endsOf ⟨a, last⟩

variable [DecidableEq α]

/-- A chain up to an element does not depend on its pointer. -/
theorem leads_update_iff (next : α → Option α) (a b : α) (target : Option α) :
    Leads (update next a target) b a ↔ Leads next b a := by
  constructor
  · intro leads
    apply leads_congr leads
    intro c _ _ other
    rw [update_of_ne other]
  · intro leads
    apply leads_congr leads
    intro c _ _ other
    rw [update_of_ne other]

/-- An assignment, or a search along the chain behind an element. -/
inductive Step (α β : Type) where
  | assign (a : α) (target : Option α)
  | search (a : α) (f : α → Option β)

def apply (next : α → Option α) : Step α β → α → Option α
  | .assign a target => update next a target
  | .search _ _ => next

def after (next : α → Option α) (steps : List (Step α β)) : α → Option α := steps.foldl apply next

/-- One of the steps gives an element of the cycle another pointer. -/
def Opened (next : α → Option α) (a : α) (steps : List (Step α β)) : Prop :=
  ∃ c target, .assign c target ∈ steps ∧ Leads next a c ∧ Leads next c a ∧ next c ≠ target

/-- A cycle that an assignment closes is opened by a later one. -/
def CyclesOpened (next : α → Option α) (steps : List (Step α β)) : Prop :=
  ∀ front a b back, steps = front ++ .assign a (some b) :: back → Leads (after next front) b a →
    Opened (update (after next front) a (some b)) a back

/-- From each element that is searched from, the pointers then lead to one
without a pointer, or with one to an element with a result. -/
def SearchesEnd (next : α → Option α) (steps : List (Step α β)) : Prop :=
  ∀ front a f back, steps = front ++ .search a f :: back →
    ∃ c, Leads (after next front) a c ∧ ∀ d, after next front c = some d → (f d).isSome

variable {steps : List (Step α β)}

theorem after_append (next : α → Option α) (front back : List (Step α β)) :
    after next (front ++ back) = after (after next front) back :=
  List.foldl_append

theorem after_of_kept (kept : α → Prop) (agree : ∀ c, kept c → next' c = next c)
    (keeps : ∀ c target, .assign c target ∈ steps → kept c →
      next c = target) {c : α} (mine : kept c) :
    after next' steps c = next c := by
  induction steps generalizing next' with
  | nil => exact agree c mine
  | cons step steps ih =>
    apply ih
    · intro d keptD
      cases step with
      | assign x target =>
        by_cases same : d = x
        · subst same
          rw [apply, update_self]
          exact (keeps d target (.head _) keptD).symm
        · rw [apply, update_of_ne same]
          exact agree d keptD
      | search x f => exact agree d keptD
    · intro d target mem
      exact keeps d target (.tail _ mem)

theorem after_of_not_opened (notOpened : ¬ Opened next a steps) {c : α}
    (ahead : Leads next a c) (back : Leads next c a) :
    after next steps c = next c := by
  apply after_of_kept (fun c => Leads next a c ∧ Leads next c a) (fun _ _ => rfl) _ ⟨ahead, back⟩
  intro c target mem here
  by_contra other
  exact notOpened ⟨c, target, mem, here.1, here.2, other⟩

/-- The cycle that an assignment closes, while no step opens it. -/
theorem onCycle_of_not_opened {b : α} (back : Leads next b a)
    (notOpened : ¬ Opened (update next a (some b)) a steps) :
    OnCycle (after (update next a (some b)) steps) a := by
  have closed : OnCycle (update next a (some b)) a :=
    ⟨b, update_self .., (leads_update_iff next a b (some b)).mpr back⟩
  apply closed.congr
  intro c ahead behind
  exact after_of_not_opened notOpened ahead behind

omit [DecidableEq α] in
theorem not_opened_append {step : Step α β} (notOpened : ¬ Opened next a steps)
    (keeps : ∀ c target, step = .assign c target → Leads next a c →
      Leads next c a → next c = target) :
    ¬ Opened next a (steps ++ [step]) := by
  rintro ⟨c, target, mem, ahead, behind, other⟩
  rcases List.mem_append.mp mem with before | last
  · exact notOpened ⟨c, target, before, ahead, behind, other⟩
  · exact other (keeps c target (List.mem_singleton.mp last).symm ahead behind)

/-- The element is on a cycle that was closed and not opened again. -/
def Closed (next : α → Option α) (steps : List (Step α β)) (c : α) : Prop :=
  ∃ front a b back, steps = front ++ .assign a (some b) :: back ∧ Leads (after next front) b a ∧
    Leads (update (after next front) a (some b)) a c ∧
    Leads (update (after next front) a (some b)) c a ∧
    ¬ Opened (update (after next front) a (some b)) a back

theorem closed_of_onCycle (acyclic : Acyclic next)
    (cycle : OnCycle (after next steps) c) : Closed next steps c := by
  induction steps using List.reverseRecOn generalizing c with
  | nil => exact absurd cycle (acyclic c)
  | append_singleton init step ih =>
    rw [after_append] at cycle
    cases step with
    | search x f =>
      rcases ih cycle with ⟨front, a, b, back, split_, leads, ahead, behind, notOpened⟩
      refine ⟨front, a, b, back ++ [.search x f], ?_, leads, ahead,
        behind, not_opened_append notOpened (fun _ _ same => nomatch same)⟩
      rw [split_, List.append_assoc, List.cons_append]
    | assign x target =>
      replace cycle : OnCycle (update (after next init) x target) c := cycle
      by_cases hit : Leads (update (after next init) x target) c x
      · -- the last assignment closes the cycle
        rcases cycle.leads hit with ⟨y, goesOn, leads⟩
        rw [update_self] at goesOn
        subst goesOn
        exact ⟨init, x, y, [], rfl, (leads_update_iff _ x y _).mp leads,
          cycle.back hit, hit, fun opened => by
            rcases opened with ⟨_, _, mem, _⟩
            cases mem⟩
      · -- the cycle was there before
        have before : OnCycle (after next init) c := by
          apply cycle.congr
          intro d ahead _
          have other : d ≠ x := fun same => hit (same ▸ ahead)
          rw [update_of_ne other]
        rcases ih before with ⟨front, a, b, back, split_, leads, ahead, behind, notOpened⟩
        refine ⟨front, a, b, back ++ [.assign x target], ?_, leads, ahead,
          behind, not_opened_append notOpened ?_⟩
        · rw [split_, List.append_assoc, List.cons_append]
        · intro d target' same toD fromD
          cases same
          exfalso
          apply hit
          rw [leads_update_iff]
          have now : after next init = after (update (after next front) a (some b)) back := by
            rw [split_, after_append]
            rfl
          rw [now]
          apply leads_congr (behind.trans toD)
          intro e toE fromE _
          exact after_of_not_opened notOpened (ahead.trans toE) (fromE.trans fromD)

/-- No cycle is left exactly if each cycle that was closed was opened. -/
theorem acyclic_after_iff (acyclic : Acyclic next) :
    Acyclic (after next steps) ↔ CyclesOpened next steps := by
  constructor
  · intro none_ front a b back split_ leads
    by_contra notOpened
    apply none_ a
    rw [split_, after_append]
    exact onCycle_of_not_opened leads notOpened
  · intro opened c cycle
    rcases closed_of_onCycle acyclic cycle with ⟨front, a, b, back, split_, leads, _, _, notOpened⟩
    exact notOpened (opened front a b back split_ leads)

def SearchesReturn (fuel : Nat) (next : α → Option α) (steps : List (Step α β)) : Prop :=
  ∀ front a f back, steps = front ++ .search a f :: back →
    (find (after next front) f fuel (after next front a)).isSome

omit [DecidableEq α] in
theorem append_singleton_cases {step last : Step α β} {front back : List (Step α β)}
    (split_ : steps ++ [last] = front ++ step :: back) :
    (back = [] ∧ steps = front ∧ last = step) ∨
    ∃ rest, steps = front ++ step :: rest := by
  rcases List.eq_nil_or_concat back with rfl | ⟨rest, other, rfl⟩
  · rcases List.append_inj' split_ rfl with ⟨same, lastSame⟩
    cases lastSame
    exact .inl ⟨rfl, same, rfl⟩
  · rw [List.concat_eq_append, ← List.cons_append, ← List.append_assoc] at split_
    exact .inr ⟨rest, (List.append_inj' split_ rfl).1⟩

theorem searchesReturn_assign {fuel : Nat} (target : Option α) :
    SearchesReturn fuel next (steps ++ [.assign a target]) ↔ SearchesReturn fuel next steps := by
  constructor
  · intro returns front c f back split_
    apply returns front c f (back ++ [.assign a target])
    rw [split_, List.append_assoc, List.cons_append]
  · intro returns front c f back split_
    rcases append_singleton_cases split_ with ⟨_, _, same⟩ | ⟨rest, before⟩
    · cases same
    · exact returns front c f rest before

theorem searchesReturn_search {fuel : Nat} :
    SearchesReturn fuel next (steps ++ [.search a f]) ↔ SearchesReturn fuel next steps ∧
      (find (after next steps) f fuel (after next steps a)).isSome := by
  constructor
  · intro returns
    refine ⟨?_, returns steps a f [] rfl⟩
    intro front c g back split_
    apply returns front c g (back ++ [.search a f])
    rw [split_, List.append_assoc, List.cons_append]
  · rintro ⟨returns, last⟩ front c g back split_
    rcases append_singleton_cases split_ with ⟨_, rfl, same⟩ | ⟨rest, before⟩
    · cases same
      exact last
    · exact returns front c g rest before

theorem exists_searchesReturn (ends : SearchesEnd next steps) :
    ∃ bound, ∀ fuel, bound ≤ fuel → SearchesReturn fuel next steps := by
  induction steps using List.reverseRecOn with
  | nil =>
    refine ⟨0, fun fuel _ front a f back split_ => ?_⟩
    cases front <;> cases split_
  | append_singleton init step ih =>
    have before : SearchesEnd next init := by
      intro front a f back split_
      apply ends front a f (back ++ [step])
      rw [split_, List.append_assoc, List.cons_append]
    rcases ih before with ⟨bound, returns⟩
    cases step with
    | assign a target =>
      refine ⟨bound, fun fuel large => ?_⟩
      exact (searchesReturn_assign target).mpr (returns fuel large)
    | search a f =>
      rcases (ends_iff.mpr (ends init a f [] rfl)).settles with ⟨result, settles⟩
      rcases settles.enough with ⟨more, found⟩
      refine ⟨bound + more, fun fuel large => ?_⟩
      apply searchesReturn_search.mpr
      refine ⟨returns fuel (Nat.le_of_add_right_le large), ?_⟩
      rw [found fuel (Nat.le_of_add_left_le large)]
      rfl

theorem searchesEnd_of_return {fuel : Nat}
    (returns : SearchesReturn fuel next steps) : SearchesEnd next steps := by
  intro front a f back split_
  rcases Option.isSome_iff_exists.mp (returns front a f back split_) with ⟨result, found⟩
  exact ends_iff.mp (ends_of_find found)

end Coast.Pointers
