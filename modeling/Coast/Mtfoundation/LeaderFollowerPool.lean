import Coast.Mtfoundation.Thread

/-!
# The leader/follower pool

One thread of the pool is the leader and waits on the handle set; the others
wait until it promotes a new one.  The pool's variables are read and written
under `fLFMutex`, and the threads stop at every place where they get it or
give it back.
-/

namespace Coast

open Function

/-- Where a pool thread is in `WaitForRequest`; `accepted` says that the
handle set found an acceptor with an event. -/
inductive FollowerPc where
  | idle
  | lock
  | enter
  | outerLoop
  | innerLoop
  | setLeader
  | wait
  | woken
  | leave
  | unlock
  | handleEvents
  | promote (accepted : Bool)
  | promoteLocked (accepted : Bool)
  | processEvent
  | relock
  deriving DecidableEq, Repr

/-- The variables of the pool, the state of every pool thread and its place
in the code.  `fLFMutex` names the thread that has it. -/
structure LeaderFollowerPool where
  fPoolState : EThreadState
  fCurrentLeader : Int
  fOldLeader : Int
  fLFMutex : Option Nat
  threads : Nat → EThreadState
  pcs : Nat → FollowerPc

inductive PoolMove where
  /-- `Run` calls `WaitForRequest`. -/
  | waitForRequest (t : Nat)
  /-- The thread goes on; `accepts` is what its wait on the handle set
  gives. -/
  | go (t : Nat) (accepts : Bool)
  /-- Somebody sets the state of a pool thread, to end it for example. -/
  | setState (t : Nat) (mine accepts : Bool) (state : EThreadState)
  | requestTermination
  deriving DecidableEq, Repr

namespace LeaderFollowerPool

def cNoCurrentLeader : Int := -1

def cBlockPromotion : Int := -2

def myId (t : Nat) : Int := t

def moveTo (this : LeaderFollowerPool) (t : Nat) (pc : FollowerPc) : LeaderFollowerPool :=
  { this with pcs := update this.pcs t pc }

def acquire (this : LeaderFollowerPool) (t : Nat) (pc : FollowerPc) : Option LeaderFollowerPool :=
  if this.fLFMutex = none then
    some { this.moveTo t pc with fLFMutex := some t }
  else none

def releaseTo (this : LeaderFollowerPool) (t : Nat) (pc : FollowerPc) : LeaderFollowerPool :=
  { this.moveTo t pc with fLFMutex := none }

/-- `PromoteNewLeader` between its lock and its unlock, whoever calls it: the
caller's id only decides about an entry of the log. -/
def promoteNewLeader (this : LeaderFollowerPool) : LeaderFollowerPool :=
  if this.fCurrentLeader ≠ cBlockPromotion then
    { this with fCurrentLeader := cNoCurrentLeader }
  else { this with fOldLeader := cNoCurrentLeader }

/-- `TimedWait` and `Wait` may end at any time, by a signal, a timeout or for
no reason; the mutex must be free then.  `CheckState` waits for a thread that
does not run yet. -/
def stepThread (this : LeaderFollowerPool) (t : Nat) (accepts : Bool) : Option LeaderFollowerPool :=
  match this.pcs t with
  | .idle => none
  | .lock => this.acquire t .enter
  | .enter =>
    if this.fPoolState.value < EThreadState.eRunning.value then
      some { this.moveTo t .outerLoop with fPoolState := .eRunning }
    else some (this.moveTo t .outerLoop)
  | .outerLoop =>
    if this.fPoolState = .eRunning then some (this.moveTo t .innerLoop)
    else some (this.moveTo t .leave)
  | .innerLoop =>
    if this.fCurrentLeader ≠ cNoCurrentLeader then
      some (this.releaseTo t .wait)
    else some (this.moveTo t .setLeader)
  | .setLeader =>
    some { this.moveTo t .unlock with fCurrentLeader := myId t }
  | .wait => this.acquire t .woken
  | .woken =>
    if EThreadState.eTerminationRequested.value ≤ this.fPoolState.value then
      some (this.moveTo t .leave)
    else if (this.threads t).value < EThreadState.eRunning.value then none
    else if this.threads t ≠ .eRunning then some (this.moveTo t .leave)
    else some (this.moveTo t .innerLoop)
  | .leave => some (this.promoteNewLeader.releaseTo t .idle)
  | .unlock => some (this.releaseTo t .handleEvents)
  | .handleEvents => some (this.moveTo t (.promote accepts))
  | .promote accepted => this.acquire t (.promoteLocked accepted)
  | .promoteLocked accepted =>
    some (this.promoteNewLeader.releaseTo t (if accepted then .processEvent else .relock))
  | .processEvent => some (this.moveTo t .relock)
  | .relock => this.acquire t .outerLoop

/-- One step of a thread, or of somebody who sets its state. -/
def step (this : LeaderFollowerPool) : PoolMove → Option LeaderFollowerPool
  | .waitForRequest t =>
    if this.pcs t = .idle then some (this.moveTo t .lock) else none
  | .go t accepts => this.stepThread t accepts
  | .setState t mine accepts state =>
    some { this with
      threads := update this.threads t
        (ThreadObject.setState (this.threads t) mine accepts state).1 }
  | .requestTermination =>
    if this.fLFMutex = none then
      some { this with
        fPoolState := .eTerminationRequested
        fCurrentLeader := cBlockPromotion }
    else none

def new (threads : Nat → EThreadState) : LeaderFollowerPool :=
  ⟨.eCreated, cNoCurrentLeader, cNoCurrentLeader, none, threads, fun _ => .idle⟩

end LeaderFollowerPool

/-!
## One leader at a time

A thread leads from the step that writes its id to the step that promotes a
new leader.  A follower that leaves promotes too, whoever leads.
-/

namespace LeaderFollowerPool

open Function Runs

/-- The thread has written its id and not yet promoted a new leader. -/
def Leads : FollowerPc → Prop
  | .unlock | .handleEvents | .promote _ | .promoteLocked _ => True
  | _ => False

/-- The thread runs under `fLFMutex`. -/
def HasMutex : FollowerPc → Prop
  | .enter | .outerLoop | .innerLoop | .setLeader | .woken | .leave |
    .unlock | .promoteLocked _ => True
  | _ => False

/-- Only one thread leads, and its id is the leader's or promotion is blocked. -/
structure OneLeader (this : LeaderFollowerPool) : Prop where
  exclusive : ∀ t u, Leads (this.pcs t) → Leads (this.pcs u) → t = u
  named : ∀ t, Leads (this.pcs t) →
    this.fCurrentLeader = myId t ∨ this.fCurrentLeader = cBlockPromotion

/-- No thread that leaves finds a leader's id in `fCurrentLeader`. -/
def Meets (this : LeaderFollowerPool) (move : PoolMove) : Prop :=
  ∀ t accepts, move = .go t accepts → this.pcs t = .leave →
    this.fCurrentLeader = cNoCurrentLeader ∨ this.fCurrentLeader = cBlockPromotion

/-- Who changes the leader has the mutex, and there is one leader at most. -/
structure Inv (this : LeaderFollowerPool) : Prop where
  mutex : ∀ t, HasMutex (this.pcs t) → this.fLFMutex = some t
  free : ∀ t, this.pcs t = .setLeader → this.fCurrentLeader = cNoCurrentLeader
  one : OneLeader this
  /-- An id is that of a leader. -/
  leader : this.fCurrentLeader = cNoCurrentLeader ∨ this.fCurrentLeader = cBlockPromotion ∨
    ∃ t, this.fCurrentLeader = myId t ∧ Leads (this.pcs t)

theorem myId_ne_none (t : Nat) : myId t ≠ cNoCurrentLeader := by
  unfold myId cNoCurrentLeader
  omega

theorem myId_ne_block (t : Nat) : myId t ≠ cBlockPromotion := by
  unfold myId cBlockPromotion
  omega

theorem new_inv (threads : Nat → EThreadState) : Inv (new threads) where
  mutex := nofun
  free := nofun
  one := ⟨nofun, nofun⟩
  leader := .inl rfl

theorem Inv.not_leads {this : LeaderFollowerPool} (inv : Inv this)
    (none : this.fCurrentLeader = cNoCurrentLeader) (t : Nat) :
    ¬ Leads (this.pcs t) := by
  intro leads
  rcases inv.one.named t leads with isMe | blocked
  · exact myId_ne_none t (isMe.symm.trans none)
  · exact absurd (none.symm.trans blocked) (by decide)

section Moves

variable {this after : LeaderFollowerPool} {t : Nat} {p : FollowerPc}

def KeepsMutex (this after : LeaderFollowerPool) (t : Nat) (p : FollowerPc) : Prop :=
  (∀ u, u ≠ t → HasMutex (this.pcs u) → after.fLFMutex = some u) ∧
    (HasMutex p → after.fLFMutex = some t)

theorem KeepsMutex.mutex (keeps : KeepsMutex this after t p) (pcs : after.pcs = update this.pcs t p)
    (u : Nat) (has : HasMutex (after.pcs u)) : after.fLFMutex = some u := by
  rw [pcs] at has
  by_cases same : u = t
  · subst same
    rw [update_self] at has
    exact keeps.2 has
  · rw [update_of_ne same] at has
    exact keeps.1 u same has

section

variable (inv : Inv this)
include inv

theorem keepsMutex_of_eq (mutex : after.fLFMutex = this.fLFMutex)
    (had : HasMutex p → HasMutex (this.pcs t)) :
    KeepsMutex this after t p :=
  ⟨fun u _ has => mutex.trans (inv.mutex u has), fun has => mutex.trans (inv.mutex t (had has))⟩

theorem keepsMutex_of_acquired (unlocked : this.fLFMutex = none) (mutex : after.fLFMutex = some t) :
    KeepsMutex this after t p := by
  refine ⟨fun u _ has => ?_, fun _ => mutex⟩
  have held := inv.mutex u has
  rw [unlocked] at held
  cases held

theorem keepsMutex_of_released (had : HasMutex (this.pcs t)) (gone : ¬ HasMutex p) :
    KeepsMutex this after t p := by
  refine ⟨fun u other has => ?_, fun has => absurd has gone⟩
  have held := (inv.mutex t had).symm.trans (inv.mutex u has)
  exact absurd (Option.some.inj held).symm other

theorem Inv.moved (pcs : after.pcs = update this.pcs t p)
    (leader : after.fCurrentLeader = this.fCurrentLeader) (keeps : KeepsMutex this after t p)
    (same : Leads p ↔ Leads (this.pcs t))
    (free : p = .setLeader → this.fCurrentLeader = cNoCurrentLeader) :
    Inv after := by
  have leads : ∀ u, Leads (after.pcs u) ↔ Leads (this.pcs u) := by
    intro u
    rw [pcs]
    by_cases isMe : u = t
    · subst isMe
      rw [update_self]
      exact same
    · rw [update_of_ne isMe]
  refine ⟨keeps.mutex pcs, ?_, ⟨?_, ?_⟩, ?_⟩
  · intro u at_
    rw [leader]
    rw [pcs] at at_
    by_cases isMe : u = t
    · subst isMe
      rw [update_self] at at_
      exact free at_
    · rw [update_of_ne isMe] at at_
      exact inv.free u at_
  · intro u v first second
    exact inv.one.exclusive u v ((leads u).mp first) ((leads v).mp second)
  · intro u first
    rw [leader]
    exact inv.one.named u ((leads u).mp first)
  · rw [leader]
    rcases inv.leader with none | blocked | ⟨u, isId, first⟩
    · exact .inl none
    · exact .inr (.inl blocked)
    · exact .inr (.inr ⟨u, isId, (leads u).mpr first⟩)

theorem Inv.setLeader (at_ : this.pcs t = .setLeader)
    (pcs : after.pcs = update this.pcs t .unlock) (mutex : after.fLFMutex = this.fLFMutex)
    (leader : after.fCurrentLeader = myId t) : Inv after := by
  have none := inv.free t at_
  have has : HasMutex (this.pcs t) := by
    rw [at_]
    trivial
  have leads : ∀ u, Leads (after.pcs u) → u = t := by
    intro u first
    by_contra other
    rw [pcs, update_of_ne other] at first
    exact inv.not_leads none u first
  refine ⟨(keepsMutex_of_eq inv mutex fun _ => has).mutex pcs, ?_, ⟨?_, ?_⟩, ?_⟩
  · intro u atU
    rw [pcs] at atU
    by_cases isMe : u = t
    · subst isMe
      rw [update_self] at atU
      cases atU
    · rw [update_of_ne isMe] at atU
      have held := inv.mutex u (by rw [atU]; trivial)
      rw [inv.mutex t has] at held
      exact absurd (Option.some.inj held).symm isMe
  · intro u v first second
    rw [leads u first, leads v second]
  · intro u first
    rw [leads u first]
    exact .inl leader
  · refine .inr (.inr ⟨t, leader, ?_⟩)
    rw [pcs, update_self]
    trivial

theorem Inv.promoted (has : HasMutex (this.pcs t))
    (pcs : after.pcs = update this.pcs t p) (leader :
      after.fCurrentLeader = this.promoteNewLeader.fCurrentLeader)
    (gone : ¬ HasMutex p) (follows : ¬ Leads p)
    (may : Leads (this.pcs t) ∨ this.fCurrentLeader = cNoCurrentLeader ∨
      this.fCurrentLeader = cBlockPromotion) : Inv after := by
  have keeps : KeepsMutex this after t p := keepsMutex_of_released inv has gone
  have leads : ∀ u, Leads (after.pcs u) → u ≠ t ∧ Leads (this.pcs u) := by
    intro u first
    rw [pcs] at first
    by_cases isMe : u = t
    · subst isMe
      rw [update_self] at first
      exact absurd first follows
    · rw [update_of_ne isMe] at first
      exact ⟨isMe, first⟩
  have noSetLeader : ∀ u, after.pcs u ≠ .setLeader := by
    intro u atU
    rw [pcs] at atU
    by_cases isMe : u = t
    · subst isMe
      rw [update_self] at atU
      rw [atU] at gone
      exact gone trivial
    · rw [update_of_ne isMe] at atU
      have held := inv.mutex u (by rw [atU]; trivial)
      rw [inv.mutex t has] at held
      exact absurd (Option.some.inj held).symm isMe
  have blockedOr : this.fCurrentLeader = cBlockPromotion ∧ after.fCurrentLeader = cBlockPromotion ∨
      this.fCurrentLeader ≠ cBlockPromotion ∧ after.fCurrentLeader = cNoCurrentLeader := by
    rw [leader]
    by_cases blocked : this.fCurrentLeader = cBlockPromotion
    · refine .inl ⟨blocked, ?_⟩
      rw [promoteNewLeader, if_neg (not_not_intro blocked)]
      exact blocked
    · refine .inr ⟨blocked, ?_⟩
      rw [promoteNewLeader, if_pos blocked]
  refine ⟨keeps.mutex pcs, fun u atU => absurd atU (noSetLeader u), ⟨?_, ?_⟩, ?_⟩
  · intro u v first second
    exact inv.one.exclusive u v (leads u first).2 (leads v second).2
  · intro u first
    rcases blockedOr with ⟨_, blocked⟩ | ⟨open_, _⟩
    · exact .inr blocked
    · exfalso
      rcases may with mine | none | blocked
      · exact (leads u first).1 (inv.one.exclusive u t (leads u first).2 mine)
      · exact inv.not_leads none u (leads u first).2
      · exact open_ blocked
  · rcases blockedOr with ⟨_, blocked⟩ | ⟨_, none⟩
    · exact .inr (.inl blocked)
    · exact .inl none

end

theorem acquire_eq_some (steps : this.acquire t p = some after) :
    this.fLFMutex = none ∧ { this.moveTo t p with fLFMutex := some t } = after := by
  rw [acquire] at steps
  split at steps
  case isTrue unlocked => exact ⟨unlocked, Option.some.inj steps⟩
  case isFalse => cases steps

theorem Inv.acquired (inv : Inv this) (steps : this.acquire t p = some after)
    (same : Leads p ↔ Leads (this.pcs t)) (free : p ≠ .setLeader) :
    Inv after := by
  rcases acquire_eq_some steps with ⟨unlocked, rfl⟩
  exact inv.moved rfl rfl (keepsMutex_of_acquired inv unlocked rfl) same
    fun isSet => absurd isSet free

theorem Inv.stays (inv : Inv this) (has : HasMutex (this.pcs t))
    (follows : ¬ Leads (this.pcs t)) (next : ¬ Leads p) (pcs : after.pcs = update this.pcs t p)
    (leader : after.fCurrentLeader = this.fCurrentLeader) (mutex : after.fLFMutex = this.fLFMutex)
    (free : p = .setLeader → this.fCurrentLeader = cNoCurrentLeader) :
    Inv after :=
  inv.moved pcs leader (keepsMutex_of_eq inv mutex fun _ => has) (iff_of_false next follows) free

end Moves

theorem promoteNewLeader_pcs (this : LeaderFollowerPool) :
    this.promoteNewLeader.pcs = this.pcs := by
  rw [promoteNewLeader]
  split
  · rfl
  · rfl

/-- A step of a thread keeps the one leader. -/
theorem stepThread_inv {this after : LeaderFollowerPool} {t : Nat} {accepts : Bool} (inv : Inv this)
    (meets : this.pcs t = .leave →
      this.fCurrentLeader = cNoCurrentLeader ∨ this.fCurrentLeader = cBlockPromotion)
    (steps : this.stepThread t accepts = some after) : Inv after := by
  rw [stepThread] at steps
  cases pc : this.pcs t with
  | idle =>
    rw [pc] at steps
    cases steps
  | lock =>
    simp only [pc] at steps
    exact inv.acquired steps (by rw [pc]; rfl) nofun
  | wait =>
    simp only [pc] at steps
    exact inv.acquired steps (by rw [pc]; rfl) nofun
  | relock =>
    simp only [pc] at steps
    exact inv.acquired steps (by rw [pc]; rfl) nofun
  | promote accepted =>
    simp only [pc] at steps
    exact inv.acquired steps (by rw [pc]; rfl) nofun
  | enter =>
    have has : HasMutex (this.pcs t) := by rw [pc]; trivial
    have follows : ¬ Leads (this.pcs t) := by rw [pc]; exact id
    simp only [pc] at steps
    split at steps
    · cases steps
      exact inv.stays (p := .outerLoop) has follows id rfl rfl rfl nofun
    · cases steps
      exact inv.stays (p := .outerLoop) has follows id rfl rfl rfl nofun
  | outerLoop =>
    have has : HasMutex (this.pcs t) := by rw [pc]; trivial
    have follows : ¬ Leads (this.pcs t) := by rw [pc]; exact id
    simp only [pc] at steps
    split at steps
    · cases steps
      exact inv.stays (p := .innerLoop) has follows id rfl rfl rfl nofun
    · cases steps
      exact inv.stays (p := .leave) has follows id rfl rfl rfl nofun
  | innerLoop =>
    have has : HasMutex (this.pcs t) := by rw [pc]; trivial
    have follows : ¬ Leads (this.pcs t) := by rw [pc]; exact id
    simp only [pc] at steps
    split at steps
    case isTrue =>
      cases steps
      exact inv.moved (p := .wait) rfl rfl
        (keepsMutex_of_released inv has id) (iff_of_false id follows) nofun
    case isFalse none =>
      cases steps
      exact inv.stays (p := .setLeader) has follows id rfl rfl rfl fun _ => not_not.mp none
  | setLeader =>
    simp only [pc] at steps
    cases steps
    exact inv.setLeader pc rfl rfl rfl
  | woken =>
    have has : HasMutex (this.pcs t) := by rw [pc]; trivial
    have follows : ¬ Leads (this.pcs t) := by rw [pc]; exact id
    simp only [pc] at steps
    split at steps
    · cases steps
      exact inv.stays (p := .leave) has follows id rfl rfl rfl nofun
    · split at steps
      · cases steps
      · split at steps
        · cases steps
          exact inv.stays (p := .leave) has follows id rfl rfl rfl nofun
        · cases steps
          exact inv.stays (p := .innerLoop) has follows id rfl rfl rfl nofun
  | leave =>
    have has : HasMutex (this.pcs t) := by rw [pc]; trivial
    simp only [pc] at steps
    cases steps
    exact inv.promoted (p := .idle) has
      (congrArg (update · t _) (promoteNewLeader_pcs this)) rfl id id (.inr (meets pc))
  | unlock =>
    have has : HasMutex (this.pcs t) := by rw [pc]; trivial
    simp only [pc] at steps
    cases steps
    exact inv.moved (p := .handleEvents) rfl rfl
      (keepsMutex_of_released inv has id) (by rw [pc]; rfl) nofun
  | handleEvents =>
    simp only [pc] at steps
    cases steps
    exact inv.moved (p := .promote accepts) rfl rfl
      (keepsMutex_of_eq inv rfl nofun) (by rw [pc]; rfl) nofun
  | promoteLocked accepted =>
    have has : HasMutex (this.pcs t) := by rw [pc]; trivial
    have leads : Leads (this.pcs t) := by rw [pc]; trivial
    simp only [pc] at steps
    cases steps
    cases accepted with
    | true =>
      exact inv.promoted (p := .processEvent) has
        (congrArg (update · t _) (promoteNewLeader_pcs this)) rfl id id (.inl leads)
    | false =>
      exact inv.promoted (p := .relock) has
        (congrArg (update · t _) (promoteNewLeader_pcs this)) rfl id id (.inl leads)
  | processEvent =>
    simp only [pc] at steps
    cases steps
    exact inv.moved (p := .relock) rfl rfl (keepsMutex_of_eq inv rfl nofun) (by rw [pc]; rfl) nofun

theorem step_inv (this : LeaderFollowerPool) (move : PoolMove) (after : LeaderFollowerPool)
    (inv : Inv this) (meets : Meets this move) (steps : this.step move = some after) :
    Inv after := by
  cases move with
  | waitForRequest t =>
    rw [step] at steps
    split at steps
    case isTrue idle =>
      cases steps
      exact inv.moved (p := .lock) rfl rfl
        (keepsMutex_of_eq inv rfl nofun) (by rw [idle]; rfl) nofun
    case isFalse => cases steps
  | go t accepts => exact stepThread_inv inv (meets t accepts rfl) steps
  | setState t mine accepts state =>
    cases steps
    exact ⟨inv.mutex, inv.free, ⟨inv.one.exclusive, inv.one.named⟩, inv.leader⟩
  | requestTermination =>
    rw [step] at steps
    split at steps
    case isTrue unlocked =>
      cases steps
      refine ⟨inv.mutex, ?_, ⟨inv.one.exclusive, fun _ _ => .inr rfl⟩, .inr (.inl rfl)⟩
      intro t pc
      have held := inv.mutex t (by rw [show this.pcs t = _ from pc]; trivial)
      rw [unlocked] at held
      cases held
    case isFalse => cases steps

theorem step_not_oneLeader (this : LeaderFollowerPool) (move : PoolMove)
    (after : LeaderFollowerPool) (inv : Inv this)
    (misses : ¬ Meets this move) (steps : this.step move = some after) :
    ¬ OneLeader after := by
  intro one
  apply misses
  intro t accepts isGo leaves
  rcases inv.leader with none | blocked | ⟨u, isId, leads⟩
  · exact .inl none
  · exact .inr blocked
  · exfalso
    subst isGo
    simp only [step, stepThread, leaves] at steps
    cases steps
    have other : u ≠ t := by
      intro isMe
      rw [isMe, leaves] at leads
      exact leads
    have notBlocked : this.fCurrentLeader ≠ cBlockPromotion := by
      rw [isId]
      exact myId_ne_block u
    have still : (this.promoteNewLeader.releaseTo t .idle).pcs u = this.pcs u := by
      simp only [releaseTo, moveTo, promoteNewLeader_pcs, update_of_ne other]
    have taken : (this.promoteNewLeader.releaseTo t .idle).fCurrentLeader = cNoCurrentLeader := by
      simp only [releaseTo, moveTo, promoteNewLeader, if_pos notBlocked]
    rcases one.named u (by rw [still]; exact leads) with isU | blocked
    · exact myId_ne_none u (isU.symm.trans taken)
    · exact absurd (taken.symm.trans blocked) (by decide)

/-- There is one leader, recorded as such, all through a run exactly when no
thread leaves while a leader's id is recorded. -/
theorem new_run_oneLeader_iff (threads : Nat → EThreadState) {moves : List PoolMove}
    {last : LeaderFollowerPool} (runs : run step (new threads) moves = some last) :
    Always step OneLeader (new threads) moves ↔ Along step Meets (new threads) moves :=
  always_iff_along step_inv (fun _ inv => inv.one) step_not_oneLeader (new_inv threads) runs

private def oneWaits : List PoolMove :=
  [.waitForRequest 0, .go 0 true, .go 0 true, .go 0 true, .go 0 true,
    .go 0 true, .go 0 true, .waitForRequest 1, .go 1 true, .go 1 true,
    .go 1 true, .go 1 true, .go 1 true]

theorem new_run_oneLeader_iff_oneWaits :
    ∃ last, run step (new fun _ => .eRunning) oneWaits = some last ∧
      (Always step OneLeader (new fun _ => .eRunning) oneWaits ↔
        Along step Meets (new fun _ => .eRunning) oneWaits) :=
  ⟨_, rfl, new_run_oneLeader_iff _ rfl⟩

/-- Thread 1 is ended and leaves while thread 0 leads; then thread 2 leads
too. -/
theorem not_new_run_oneLeader :
    ¬ ∀ (threads : Nat → EThreadState) (moves : List PoolMove)
        (last : LeaderFollowerPool),
      run step (new threads) moves = some last → OneLeader last := by
  intro always
  have one := always (fun _ => .eRunning)
    (oneWaits ++ [PoolMove.setState 1 false true .eTerminationRequested, .go 1 true,
      .go 1 true, .waitForRequest 2, .go 2 true, .go 2 true, .go 2 true,
      .go 2 true, .go 2 true]) _ rfl
  exact absurd (one.exclusive 0 2 trivial trivial) (by decide)

end LeaderFollowerPool

open List Option Nat

/-! ## The handle set -/

/-- What one `poll` gives: its return code, whether it was interrupted, and
the events at every index of the descriptors. -/
structure PollResult where
  retCode : Int
  interrupted : Bool
  revents : Nat → BitVec 16

namespace PollResult

def pollIn : BitVec 16 := 1

def hasEvent (this : PollResult) (idx : Nat) : Bool := this.revents idx &&& pollIn ≠ 0

def answer : List PollResult → Option PollResult
  | [] => none
  | result :: results =>
    if result.retCode < 0 && result.interrupted then answer results
    else some result

def reports (results : List PollResult) : Bool :=
  (answer results).any fun result => 0 < result.retCode

end PollResult

structure HandleSet (Acceptor : Type) where
  fDemuxTable : List Acceptor
  fLastAcceptorUsedIndex : Nat

namespace HandleSet

open PollResult

variable {Acceptor : Type}

def nextUsed (this : HandleSet Acceptor) (result : PollResult) : Option Nat :=
  let nofds := this.fDemuxTable.length
  let idx := fun i => (this.fLastAcceptorUsedIndex + 1 + i) % nofds
  ((List.range nofds).find? fun i => result.hasEvent (idx i)).map idx

/-- `poll` and its retries, then the next handle behind the last one used. -/
def waitForEvents (this : HandleSet Acceptor) (results : List PollResult) :
    Option (Option Acceptor × HandleSet Acceptor) :=
  (answer results).map fun result =>
    if 0 < result.retCode then
      match this.nextUsed result with
      | some idx =>
        (this.fDemuxTable[idx]?, { this with fLastAcceptorUsedIndex := idx })
      | none => (none, this)
    else (none, this)

def waits (this : HandleSet Acceptor) : List (List PollResult) → List (Option Acceptor)
  | [] => []
  | results :: calls =>
    match this.waitForEvents results with
    | none => []
    | some (acceptor, after) => acceptor :: after.waits calls

variable {this : HandleSet Acceptor} {result : PollResult}

theorem nextUsed_some {idx : Nat} (used : this.nextUsed result = some idx) :
    ∃ i, (this.fLastAcceptorUsedIndex + 1 + i) %
        this.fDemuxTable.length = idx ∧ result.hasEvent idx = true ∧
      ∀ earlier < i, result.hasEvent
        ((this.fLastAcceptorUsedIndex + 1 + earlier) % this.fDemuxTable.length) = false := by
  rw [nextUsed] at used
  rcases map_eq_some_iff.mp used with ⟨i, found, rfl⟩
  rcases find?_range_eq_some.mp found with ⟨event, -, before⟩
  refine ⟨i, rfl, event, fun earlier less => ?_⟩
  exact (Bool.not_eq_true' _).mp (before earlier less)

theorem nextUsed_reaches {d : Nat} (inside : d < this.fDemuxTable.length)
    (event : result.hasEvent ((this.fLastAcceptorUsedIndex + 1 + d) %
      this.fDemuxTable.length) = true) :
    ∃ idx, this.nextUsed result = some idx := by
  cases used : this.nextUsed result with
  | some idx => exact ⟨idx, rfl⟩
  | none =>
    rw [nextUsed, map_eq_none_iff, find?_eq_none] at used
    exact absurd event (used d (mem_range.mpr inside))

variable {results : List PollResult} {acceptor : Acceptor}

theorem waitForEvents_event {after : HandleSet Acceptor}
    (returns : this.waitForEvents results = some (some acceptor, after)) :
    ∃ result idx, answer results = some result ∧ 0 < result.retCode ∧
      this.fDemuxTable[idx]? = some acceptor ∧
      result.hasEvent idx = true := by
  rw [waitForEvents] at returns
  rcases map_eq_some_iff.mp returns with ⟨result, answered, same⟩
  by_cases positive : 0 < result.retCode
  · rw [if_pos positive] at same
    cases used : this.nextUsed result with
    | none =>
      rw [used] at same
      cases same
    | some idx =>
      rw [used] at same
      rcases nextUsed_some used with ⟨-, -, event, -⟩
      exact ⟨result, idx, answered, positive, congrArg Prod.fst same, event⟩
  · rw [if_neg positive] at same
    cases same

theorem nextUsed_closer {d idx : Nat} (used : this.nextUsed result = some idx)
    (event : result.hasEvent ((this.fLastAcceptorUsedIndex + 1 + d) %
      this.fDemuxTable.length) = true)
    (another : idx ≠ (this.fLastAcceptorUsedIndex + 1 + d) %
      this.fDemuxTable.length) :
    ∃ closer < d, (idx + 1 + closer) % this.fDemuxTable.length =
      (this.fLastAcceptorUsedIndex + 1 + d) % this.fDemuxTable.length := by
  rcases nextUsed_some used with ⟨i, rfl, -, before⟩
  have less : i < d := by
    rcases Nat.lt_trichotomy i d with less | rfl | more
    · exact less
    · exact absurd rfl another
    · exact absurd event (by rw [before d more]; exact Bool.false_ne_true)
  refine ⟨d - i - 1, by omega, ?_⟩
  rw [Nat.add_assoc, mod_add_mod]
  congr 1
  omega

theorem waitForEvents_idle
    (answered : answer results = some result) (idle : reports results = false) :
    this.waitForEvents results = some (none, this) := by
  rw [reports, answered, any_some, decide_eq_false_iff_not] at idle
  rw [waitForEvents, answered, map_some, if_neg idle]

/-- A call that reports events while the acceptor has one returns it, or
another one that leaves the scan closer to it. -/
theorem waitForEvents_closer {d j : Nat} (inside : d < this.fDemuxTable.length)
    (place : (this.fLastAcceptorUsedIndex + 1 + d) % this.fDemuxTable.length = j)
    (registered : this.fDemuxTable[j]? = some acceptor) (answered : answer results = some result)
    (reported : 0 < result.retCode) (event : result.hasEvent j = true) :
    (∃ after, this.waitForEvents results = some (some acceptor, after)) ∨
      ∃ other after, this.waitForEvents results = some (other, after) ∧
        after.fDemuxTable = this.fDemuxTable ∧
        ∃ closer < d, (after.fLastAcceptorUsedIndex + 1 + closer) %
          this.fDemuxTable.length = j := by
  subst place
  rcases nextUsed_reaches inside event with ⟨idx, used⟩
  have returns : this.waitForEvents results =
      some (this.fDemuxTable[idx]?, { this with fLastAcceptorUsedIndex := idx }) := by
    rw [waitForEvents, answered, map_some, if_pos reported, used]
  by_cases another : idx = (this.fLastAcceptorUsedIndex + 1 + d) % this.fDemuxTable.length
  · left
    rw [another, registered] at returns
    exact ⟨_, returns⟩
  · right
    exact ⟨_, _, returns, rfl, nextUsed_closer used event another⟩

/-- The invariant of the calls: the acceptor is no further behind the
beginning of the scan than calls that report events are left. -/
theorem waits_reaches {j d : Nat} {calls : List (List PollResult)}
    (registered : this.fDemuxTable[j]? = some acceptor)
    (ready : ∀ results ∈ calls, ∃ result, answer results = some result ∧
    (0 < result.retCode → result.hasEvent j = true)) (inside : d < this.fDemuxTable.length)
    (place : (this.fLastAcceptorUsedIndex + 1 + d) % this.fDemuxTable.length = j)
    (enough : d < calls.countP reports) :
    some acceptor ∈ this.waits calls := by
  induction calls generalizing this d with
  | nil => exact absurd enough (not_lt_zero d)
  | cons results calls ih =>
    rcases ready results mem_cons_self with ⟨result, answered, event⟩
    have later := (forall_mem_cons.mp ready).2
    by_cases reported : 0 < result.retCode
    · have reporting : reports results = true := by
        rw [reports, answered, any_some, decide_eq_true reported]
      rw [countP_cons_of_pos reporting] at enough
      rcases waitForEvents_closer inside place registered answered reported
        (event reported) with ⟨after, returns⟩ |
          ⟨other, after, returns, same, closer, less, place⟩
      · rw [waits, returns]
        exact mem_cons_self
      · rw [waits, returns]
        rw [← same] at registered place
        exact mem_cons_of_mem _ (ih registered later
          (by rw [same]; exact Nat.lt_trans less inside) place (by omega))
    · have idle : reports results = false := by
        rw [reports, answered, any_some, decide_eq_false reported]
      have notReporting : ¬ reports results = true := by
        rw [idle]
        exact Bool.false_ne_true
      rw [countP_cons_of_neg notReporting] at enough
      rw [waits, waitForEvents_idle answered idle]
      exact mem_cons_of_mem _ (ih registered later inside place enough)

theorem exists_place {n last j : Nat} (inside : j < n) : ∃ d < n, (last + 1 + d) % n = j := by
  have positive : 0 < n := zero_lt_of_lt inside
  have small := mod_lt (last + 1) positive
  refine ⟨(j + (n - (last + 1) % n)) % n, mod_lt _ positive, ?_⟩
  rw [add_mod_mod, ← mod_add_mod, show (last + 1) % n + (j + (n - (last + 1) % n)) = j + n by omega,
    add_mod_right, mod_eq_of_lt inside]

/-- A call returns only an acceptor that has an event, and an acceptor that
has one in as many calls that report events as there are acceptors is
returned by one of them. -/
theorem waits_fair (this : HandleSet Acceptor) :
    (∀ results acceptor after, this.waitForEvents results = some (some acceptor, after) →
        ∃ result idx, answer results = some result ∧ 0 < result.retCode ∧
          this.fDemuxTable[idx]? = some acceptor ∧
          result.hasEvent idx = true) ∧
    ∀ j acceptor calls, this.fDemuxTable[j]? = some acceptor →
      (∀ results ∈ calls, ∃ result, answer results = some result ∧
        (0 < result.retCode → result.hasEvent j = true)) →
      this.fDemuxTable.length ≤ calls.countP reports →
      some acceptor ∈ this.waits calls := by
  constructor
  · intro results acceptor after returns
    exact waitForEvents_event returns
  · intro j acceptor calls registered ready enough
    have inside := (List.getElem?_eq_some_iff.mp registered).1
    rcases exists_place inside with ⟨d, less, place⟩
    exact waits_reaches registered ready less place (Nat.lt_of_lt_of_le less enough)

/-- Three acceptors, all of which have events in three calls. -/
theorem waits_fair_three :
    some 'c' ∈ (⟨['a', 'b', 'c'], 2⟩ : HandleSet Char).waits
      (List.replicate 3 [⟨-1, true, fun _ => 0⟩, ⟨3, false, fun _ => 1⟩]) := by
  apply (waits_fair (⟨['a', 'b', 'c'], 2⟩ : HandleSet Char)).2 2
  · rfl
  · intro results member
    rw [eq_of_mem_replicate member]
    exact ⟨_, rfl, fun _ => rfl⟩
  · decide

end HandleSet

end Coast
