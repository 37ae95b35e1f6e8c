import Coast.Mtfoundation.Thread

/-!
# The state of a thread moves forward

A request for termination that finds `eStartRequested` sets `eTerminated`,
although a `Start` may be about to create the system thread.  In runs without
that step there is one system thread at a time, and the state says where it
is.
-/

namespace Coast

open Runs Function

namespace ThreadObject

/-- From the accepted request to the state that follows the creation of the
system thread. -/
def Starting : CallerPc → Prop
  | .startThread | .storeId _ | .inProgress => True
  | _ => False

variable {ι : Type}

/-- The caller that has created the system thread and not yet said so. -/
def Creates (callers : ι → CallerPc) (fThreadId : Option Nat) (id : Nat) : Prop :=
  ∃ caller, callers caller = .storeId id ∨ callers caller = .inProgress ∧ fThreadId = some id

/-- How the state goes with the place of the system thread. -/
def SystemOk (fState : EThreadState) (fThreadId : Option Nat)
    (callers : ι → CallerPc) (id : Nat) : SystemPc → Prop
  | .checkStarted =>
    fState = .eStartRequested ∧ Creates callers fThreadId id ∨
      (fState = .eStartInProgress ∨ fState = .eStarted ∨
        fState = .eTerminationRequested) ∧ fThreadId = some id
  | .setRunning =>
    (fState = .eStarted ∨ fState = .eTerminationRequested) ∧ fThreadId = some id
  | .runMethod | .leaveRun =>
    (fState = .eRunning ∨ fState = .eTerminationRequested) ∧ fThreadId = some id
  | .resetId => fState = .eTerminatedRunMethod ∧ fThreadId = some id
  | .exit => fState = .eTerminatedRunMethod ∧ fThreadId = none
  | .ended => True

/-- One caller starts the thread, and one system thread runs. -/
structure Inv (this : ThreadObject ι) : Prop where
  starters : ∀ c c', Starting (this.callers c) → Starting (this.callers c') → c = c'
  requested : ∀ c, Starting (this.callers c) → this.fState = .eStartRequested
  fresh : ∀ id, this.created ≤ id → this.system id = .ended
  single : ∀ id id', this.system id ≠ .ended → this.system id' ≠ .ended → id = id'
  states : ∀ id, SystemOk this.fState this.fThreadId this.callers id (this.system id)

/-- The system thread is not at the end of its `IntRun`. -/
def InIntRun : SystemPc → Prop
  | .checkStarted | .setRunning | .runMethod | .leaveRun => True
  | _ => False

def Forward (before after : EThreadState) : Prop :=
  before.value ≤ after.value ∨ before = .eTerminated ∧ after = .eCreated

/-- A request for termination does not find a start that was requested and
is in progress. -/
def Meets (this : ThreadObject ι) : ThreadMove ι → Prop
  | .caller caller _ =>
    this.callers caller = .withdraw ∨ this.callers caller = .terminate →
      this.fState = .eStartRequested → ∀ c, ¬ Starting (this.callers c)
  | _ => True

section

variable {this : ThreadObject ι}

theorem Inv.all_ended (inv : Inv this)
    (early : this.fState = .eCreated ∨ this.fState = .eTerminated ∨
      this.fState = .eStartRequested ∧ ∀ id, ¬ Creates this.callers this.fThreadId id)
    (id : Nat) : this.system id = .ended := by
  have ok := inv.states id
  cases pc : this.system id with
  | ended => rfl
  | checkStarted =>
    rw [pc] at ok
    rcases early with same | same | ⟨same, none'⟩ <;>
      rcases ok with ⟨other, creates⟩ | ⟨other | other | other, _⟩ <;>
      first
        | exact absurd creates (none' id)
        | (rw [same] at other; cases other)
  | setRunning | runMethod | leaveRun =>
    rw [pc] at ok
    rcases early with same | same | ⟨same, _⟩ <;>
      rcases ok with ⟨other | other, _⟩ <;>
      (rw [same] at other; cases other)
  | resetId | exit =>
    rw [pc] at ok
    rcases early with same | same | ⟨same, _⟩ <;>
      rcases ok with ⟨other, _⟩ <;>
      (rw [same] at other; cases other)

theorem starting_of_creates {callers : ι → CallerPc} {fThreadId : Option Nat} {id : Nat}
    (creates : Creates callers fThreadId id) :
    ∃ c, Starting (callers c) ∧ callers c ≠ .startThread := by
  rcases creates with ⟨c, stores | ⟨progress, _⟩⟩
  · refine ⟨c, ?_, ?_⟩
    · rw [stores]
      trivial
    · rw [stores]
      nofun
  · refine ⟨c, ?_, ?_⟩
    · rw [progress]
      trivial
    · rw [progress]
      nofun

end

section

variable [DecidableEq ι]

theorem starting_update {callers : ι → CallerPc} {caller : ι} {pc : CallerPc} (calm : ¬ Starting pc)
    {c : ι} (starts : Starting (Function.update callers caller pc c)) :
    c ≠ caller ∧ Starting (callers c) := by
  rw [update_apply] at starts
  split at starts
  · exact absurd starts calm
  · rename_i different
    exact ⟨different, starts⟩

theorem creates_update {callers : ι → CallerPc} {caller : ι}
    {pc : CallerPc} {fThreadId : Option Nat} {id : Nat}
    (before : ¬ Starting (callers caller)) (creates : Creates callers fThreadId id) :
    Creates (Function.update callers caller pc) fThreadId id := by
  rcases creates with ⟨c, either⟩
  have different : c ≠ caller := by
    intro same
    rw [same] at either
    rcases either with stores | ⟨progress, _⟩
    · rw [stores] at before
      exact before trivial
    · rw [progress] at before
      exact before trivial
  refine ⟨c, ?_⟩
  rw [update_of_ne different]
  exact either

end

theorem SystemOk.callers {fState : EThreadState} {fThreadId : Option Nat}
    {callers callers' : ι → CallerPc} {id : Nat} {pc : SystemPc}
    (ok : SystemOk fState fThreadId callers id pc)
    (creates : Creates callers fThreadId id → Creates callers' fThreadId id) :
    SystemOk fState fThreadId callers' id pc := by
  cases pc with
  | checkStarted =>
    rcases ok with ⟨same, created⟩ | later
    · exact Or.inl ⟨same, creates created⟩
    · exact Or.inr later
  | setRunning | runMethod | leaveRun | resetId | exit | ended => exact ok

section

variable [DecidableEq ι] {this : ThreadObject ι}

variable {caller : ι} {pc : CallerPc}

theorem Inv.moveTo (inv : Inv this)
    (before : ¬ Starting (this.callers caller)) (calm : ¬ Starting pc) :
    Inv (this.moveTo caller pc) where
  starters := by
    intro c c' first second
    exact inv.starters c c' (starting_update calm first).2 (starting_update calm second).2
  requested := by
    intro c starts
    exact inv.requested c (starting_update calm starts).2
  fresh := inv.fresh
  single := inv.single
  states := by
    intro id
    exact (inv.states id).callers (creates_update before)

omit [DecidableEq ι] in
theorem Inv.withState (inv : Inv this) {fState : EThreadState}
    (calm : fState = this.fState ∨ ∀ c, ¬ Starting (this.callers c))
    (systems : ∀ id, SystemOk fState this.fThreadId this.callers id
      (this.system id)) : Inv { this with fState := fState } where
  starters := inv.starters
  requested := by
    intro c starts
    rcases calm with same | none'
    · exact same.trans (inv.requested c starts)
    · exact absurd starts (none' c)
  fresh := inv.fresh
  single := inv.single
  states := systems

section

variable (fState : EThreadState)
include fState

theorem setState_created :
    (setState fState false true .eCreated).1 =
      if fState = .eTerminated then .eCreated else fState := by
  cases fState <;> rfl

theorem setState_started :
    (setState fState false true .eStarted).1 =
      if fState = .eStartInProgress then .eStarted else fState := by
  cases fState <;> rfl

theorem setState_inProgress :
    (setState fState false true .eStartInProgress).1 =
      if fState = .eStartRequested then .eStartInProgress else fState := by
  cases fState <;> rfl

theorem setState_requested (accepts : Bool) :
    setState fState false accepts .eStartRequested =
      if fState = .eCreated ∧ accepts = true then (.eStartRequested, true)
      else (fState, false) := by
  cases fState <;> cases accepts <;> rfl

theorem setState_running (mine : Bool) :
    setState fState mine true .eRunning =
      if fState = .eStarted then (.eRunning, true) else (fState, false) := by
  cases fState <;> cases mine <;> rfl

theorem setState_terminatedRunMethod :
    (setState fState true true .eTerminatedRunMethod).1 = .eTerminatedRunMethod := by
  cases fState <;> rfl

theorem setState_terminated :
    (setState fState false true .eTerminated).1 =
      if fState = .eTerminatedRunMethod then .eTerminated else fState := by
  cases fState <;> rfl

end

def withdrawn : EThreadState → EThreadState
  | .eCreated | .eStartRequested => .eTerminated
  | .eStartInProgress | .eStarted | .eRunning => .eTerminationRequested
  | fState => fState

theorem setState_terminationRequested (fState : EThreadState) :
    (setState fState false true .eTerminationRequested).1 = withdrawn fState := by
  cases fState <;> rfl

theorem forward_refl (fState : EThreadState) : Forward fState fState := Or.inl (Nat.le_refl _)

section

variable (inv : Inv this)
include inv

omit [DecidableEq ι] in
theorem Inv.withdraw (calm : this.fState = .eStartRequested → ∀ c, ¬ Starting (this.callers c)) :
    Inv { this with fState := withdrawn this.fState } := by
  have noCreates : this.fState = .eStartRequested →
      ∀ id, ¬ Creates this.callers this.fThreadId id := by
    intro same id creates
    rcases starting_of_creates creates with ⟨c, starts, _⟩
    exact calm same c starts
  apply inv.withState
  · by_cases same : this.fState = .eStartRequested
    · exact Or.inr (calm same)
    · right
      intro c starts
      exact same (inv.requested c starts)
  · intro id
    have ok := inv.states id
    cases state : this.fState with
    | eCreated =>
      rw [inv.all_ended (Or.inl state) id]
      trivial
    | eStartRequested =>
      rw [inv.all_ended (Or.inr (Or.inr ⟨state, noCreates state⟩)) id]
      trivial
    | eStartInProgress | eStarted | eRunning =>
      rw [state] at ok
      cases pc : this.system id <;> rw [pc] at ok <;>
        simp only [SystemOk, withdrawn, reduceCtorEq, false_and, or_false,
          false_or, or_true, true_and] at ok ⊢ <;>
        exact ok
    | eTerminationRequested | eTerminatedRunMethod | eTerminated =>
      rw [state] at ok
      exact ok

omit [DecidableEq ι] in
theorem not_starting_of_state (other : this.fState ≠ .eStartRequested) (c : ι) :
    ¬ Starting (this.callers c) :=
  fun starts => other (inv.requested c starts)

theorem Inv.request (caller : ι) (isCreated : this.fState = .eCreated) :
    Inv ({ this with fState := .eStartRequested }.moveTo caller .startThread) where
  starters := by
    have only : ∀ c, Starting (Function.update this.callers caller
        .startThread c) → c = caller := by
      intro c starts
      rw [update_apply] at starts
      split at starts
      · rename_i same
        exact same
      · have requested := inv.requested c starts
        rw [isCreated] at requested
        cases requested
    intro c c' first second
    exact (only c first).trans (only c' second).symm
  requested := fun _ _ => rfl
  fresh := inv.fresh
  single := inv.single
  states := by
    intro id
    have ended := inv.all_ended (Or.inl isCreated) id
    dsimp only [ThreadObject.moveTo]
    rw [ended]
    trivial

omit [DecidableEq ι] in
theorem Inv.waiting {caller : ι} (starts : Starting (this.callers caller)) (id : Nat) :
    this.system id = .ended ∨ this.system id = .checkStarted ∧ (this.callers caller = .storeId id ∨
          this.callers caller = .inProgress ∧ this.fThreadId = some id) := by
  have ok := inv.states id
  rw [inv.requested caller starts] at ok
  cases place : this.system id with
  | ended => exact Or.inl rfl
  | checkStarted =>
    rw [place] at ok
    rcases ok with ⟨_, c, either⟩ | ⟨later | later | later, _⟩
    · have isCaller : c = caller := by
        apply inv.starters c caller _ starts
        rcases either with stores | ⟨progress, _⟩
        · rw [stores]
          trivial
        · rw [progress]
          trivial
      rw [isCaller] at either
      exact Or.inr ⟨rfl, either⟩
    · cases later
    · cases later
    · cases later
  | setRunning | runMethod | leaveRun =>
    rw [place] at ok
    rcases ok with ⟨later | later, _⟩ <;> cases later
  | resetId | exit =>
    rw [place] at ok
    rcases ok with ⟨later, _⟩
    cases later

omit [DecidableEq ι] in
theorem Inv.none_created (pc : this.callers caller = .startThread) :
    this.fState = .eStartRequested ∧ ∀ id, this.system id = .ended := by
  have starts : Starting (this.callers caller) := by
    rw [pc]
    trivial
  refine ⟨inv.requested caller starts, ?_⟩
  intro id
  rcases inv.waiting starts id with ended | ⟨_, stores | ⟨progress, _⟩⟩
  · exact ended
  · rw [pc] at stores
    cases stores
  · rw [pc] at progress
    cases progress

theorem Inv.only (starts : Starting (this.callers caller)) {pc : CallerPc} (c : ι)
    (alsoStarts : Starting (Function.update this.callers caller pc c)) : c = caller := by
  rw [update_apply] at alsoStarts
  split at alsoStarts
  · rename_i same
    exact same
  · exact inv.starters c caller alsoStarts starts

theorem Inv.startThread (pc : this.callers caller = .startThread) :
    Inv ({ this.systemTo this.created .checkStarted with
      created := this.created + 1 }.moveTo caller (.storeId this.created)) := by
  rcases inv.none_created pc with ⟨requested, ended⟩
  have starts : Starting (this.callers caller) := by
    rw [pc]
    trivial
  have isNew : ∀ id, Function.update this.system this.created
      .checkStarted id ≠ .ended → id = this.created := by
    intro id running
    rw [update_apply] at running
    split at running
    · rename_i same
      exact same
    · exact absurd (ended id) running
  exact {
    starters := fun c c' first second =>
      (inv.only starts c first).trans (inv.only starts c' second).symm
    requested := fun _ _ => requested
    fresh := by
      intro id above
      have different : id ≠ this.created := Nat.ne_of_gt above
      dsimp only [ThreadObject.moveTo, systemTo]
      rw [update_of_ne different]
      exact ended id
    single := fun id id' first second =>
      (isNew id first).trans (isNew id' second).symm
    states := by
      intro id
      dsimp only [ThreadObject.moveTo, systemTo]
      by_cases same : id = this.created
      · rw [same, update_self]
        exact Or.inl ⟨requested, caller, Or.inl (update_self _ _ _)⟩
      · rw [update_of_ne same, ended id]
        trivial }

theorem Inv.notStarted (pc : this.callers caller = .startThread) :
    Inv ({ this with fThreadId := none }.moveTo caller .idle) := by
  rcases inv.none_created pc with ⟨requested, ended⟩
  have calm : ∀ c, Starting (Function.update this.callers caller .idle c) →
      Starting (this.callers c) := by
    intro c starts
    exact (starting_update id starts).2
  exact {
    starters := fun c c' first second =>
      inv.starters c c' (calm c first) (calm c' second)
    requested := fun _ _ => requested
    fresh := inv.fresh
    single := inv.single
    states := by
      intro id
      dsimp only [ThreadObject.moveTo]
      rw [ended id]
      trivial }

theorem Inv.storeId {id : Nat} (pc : this.callers caller = .storeId id) :
    Inv ({ this with fThreadId := some id }.moveTo caller .inProgress) := by
  have starts : Starting (this.callers caller) := by
    rw [pc]
    trivial
  have requested := inv.requested caller starts
  exact {
    starters := fun c c' first second =>
      (inv.only starts c first).trans (inv.only starts c' second).symm
    requested := fun _ _ => requested
    fresh := inv.fresh
    single := inv.single
    states := by
      intro other
      dsimp only [ThreadObject.moveTo]
      rcases inv.waiting starts other with ended | ⟨waits, either⟩
      · rw [ended]
        trivial
      · rw [waits]
        rcases either with stores | ⟨progress, _⟩
        · rw [pc] at stores
          cases stores
          exact Or.inl ⟨requested, caller, Or.inr ⟨update_self _ _ _, rfl⟩⟩
        · rw [pc] at progress
          cases progress }

theorem Inv.inProgress (pc : this.callers caller = .inProgress) :
    Inv ({ this with fState := .eStartInProgress }.moveTo caller .started) := by
  have starts : Starting (this.callers caller) := by
    rw [pc]
    trivial
  have none' : ∀ c, ¬ Starting (Function.update this.callers caller .started c) := by
    intro c alsoStarts
    rcases starting_update id alsoStarts with ⟨different, before⟩
    exact different (inv.starters c caller before starts)
  exact {
    starters := fun c _ first => absurd first (none' c)
    requested := fun c first => absurd first (none' c)
    fresh := inv.fresh
    single := inv.single
    states := by
      intro other
      dsimp only [ThreadObject.moveTo]
      rcases inv.waiting starts other with ended | ⟨waits, either⟩
      · rw [ended]
        trivial
      · rw [waits]
        rcases either with stores | ⟨_, known⟩
        · rw [pc] at stores
          cases stores
        · exact Or.inr ⟨Or.inl rfl, known⟩ }

end

omit [DecidableEq ι] in
theorem not_starting (place : this.callers caller = pc) (calm : ¬ Starting pc) :
    ¬ Starting (this.callers caller) := by
  rw [place]
  exact calm

section

variable (inv : Inv this)
include inv

theorem Inv.setAndMove {fState : EThreadState} (before : ¬ Starting (this.callers caller))
    (calm : ¬ Starting pc) (requested : fState = this.fState ∨ ∀ c, ¬ Starting (this.callers c))
    (systems : ∀ id, SystemOk fState this.fThreadId this.callers id
      (this.system id)) :
    Inv ({ this with fState := fState }.moveTo caller pc) :=
  (inv.withState requested systems).moveTo before calm

theorem Inv.recreate {allocator : Bool} (place : this.callers caller = .recreate allocator) :
    Inv ((this.callerSets true .eCreated).1.moveTo caller (.createdCheck allocator)) := by
  have before := not_starting place id
  dsimp only [callerSets]
  rw [setState_created]
  by_cases hasEnded : this.fState = .eTerminated
  · rw [if_pos hasEnded]
    apply inv.setAndMove before id
    · right
      apply not_starting_of_state inv
      rw [hasEnded]
      nofun
    · intro other
      rw [inv.all_ended (Or.inr (Or.inl hasEnded)) other]
      trivial
  · rw [if_neg hasEnded]
    exact inv.setAndMove before id (Or.inl rfl) inv.states

theorem Inv.requestStep {succeeds : Bool} (place : this.callers caller = .request) :
    Inv ((this.callerSets succeeds .eStartRequested).1.moveTo caller
      (if (this.callerSets succeeds .eStartRequested).2 then .startThread else .withdraw)) := by
  have before := not_starting place id
  have sets := setState_requested this.fState succeeds
  by_cases accepted : this.fState = .eCreated ∧ succeeds = true
  · rw [if_pos accepted] at sets
    simp only [callerSets, sets]
    exact inv.request caller accepted.1
  · rw [if_neg accepted] at sets
    simp only [callerSets, sets]
    exact inv.setAndMove before id (Or.inl rfl) inv.states

theorem Inv.inProgressStep (place : this.callers caller = .inProgress) :
    Inv ((this.callerSets true .eStartInProgress).1.moveTo caller .started) := by
  have starts : Starting (this.callers caller) := by
    rw [place]
    trivial
  dsimp only [callerSets]
  rw [setState_inProgress, if_pos (inv.requested caller starts)]
  exact inv.inProgress place

theorem Inv.startedStep (place : this.callers caller = .started) :
    Inv ((this.callerSets true .eStarted).1.moveTo caller .idle) := by
  have before := not_starting place id
  dsimp only [callerSets]
  rw [setState_started]
  by_cases progress : this.fState = .eStartInProgress
  · rw [if_pos progress]
    apply inv.setAndMove before id
    · right
      apply not_starting_of_state inv
      rw [progress]
      nofun
    · intro other
      have ok := inv.states other
      rw [progress] at ok
      cases pc : this.system other <;> rw [pc] at ok <;>
        simp only [SystemOk, reduceCtorEq, false_and, or_false, false_or, or_self, true_and] at ok ⊢
      exact ok
  · rw [if_neg progress]
    exact inv.setAndMove before id (Or.inl rfl) inv.states

theorem Inv.withdrawStep (before : ¬ Starting (this.callers caller)) (calm : ¬ Starting pc)
    (meets : this.fState = .eStartRequested → ∀ c, ¬ Starting (this.callers c)) :
    Inv ((this.callerSets true .eTerminationRequested).1.moveTo caller pc) := by
  dsimp only [callerSets]
  rw [setState_terminationRequested]
  exact (inv.withdraw meets).moveTo before calm

end

variable {after : ThreadObject ι}

theorem Inv.stepCaller (inv : Inv this) {succeeds : Bool}
    (meets : Meets this (.caller caller succeeds))
    (steps : this.stepCaller caller succeeds = some after) : Inv after := by
  unfold ThreadObject.stepCaller at steps
  split at steps
  case h_1 => cases steps
  case h_2 allocator place =>
      have before := not_starting place id
      split at steps <;> cases steps <;> exact inv.moveTo before id
  case h_3 allocator place =>
      have before := not_starting place id
      split at steps <;> cases steps <;> exact inv.moveTo before id
  case h_4 allocator place =>
      cases steps
      exact inv.recreate place
  case h_5 allocator place =>
      have before := not_starting place id
      split at steps <;> cases steps <;> exact inv.moveTo before id
  case h_6 place =>
      cases steps
      exact inv.requestStep place
  case h_7 place =>
      split at steps <;> cases steps
      · exact inv.startThread place
      · exact inv.notStarted place
  case h_8 other place =>
      cases steps
      exact inv.storeId place
  case h_9 place =>
      cases steps
      exact inv.inProgressStep place
  case h_10 place =>
      cases steps
      exact inv.startedStep place
  case h_11 place =>
      cases steps
      exact inv.withdrawStep (not_starting place id) id (meets (Or.inl place))
  case h_12 place =>
      cases steps
      exact inv.withdrawStep (not_starting place id) id (meets (Or.inr place))
  case h_13 state place =>
      have before := not_starting place id
      split at steps <;> cases steps
      exact inv.moveTo before id

theorem forward_setState (fState : EThreadState) (accepts : Bool) {state : EThreadState}
    (asked : state = .eCreated ∨ state = .eStartRequested ∨
      state = .eStartInProgress ∨ state = .eStarted ∨
      state = .eTerminationRequested) :
    Forward fState (setState fState false accepts state).1 := by
  unfold Forward
  rcases asked with same | same | same | same | same <;> rw [same] <;>
    cases fState <;> cases accepts <;> decide

theorem forward_stepCaller {succeeds : Bool}
    (steps : this.stepCaller caller succeeds = some after) :
    Forward this.fState after.fState := by
  unfold ThreadObject.stepCaller at steps
  split at steps
  case h_1 => cases steps
  case h_2 | h_3 | h_5 | h_7 | h_13 =>
      split at steps <;> cases steps <;> exact forward_refl this.fState
  case h_8 =>
      cases steps
      exact forward_refl this.fState
  case h_4 | h_6 | h_9 | h_10 | h_11 | h_12 =>
      cases steps
      exact forward_setState this.fState _ (by decide)

section

variable (inv : Inv this)
include inv

omit [DecidableEq ι] in
theorem Inv.systemStep {current : Nat} {pc : SystemPc}
    {fState : EThreadState} {fThreadId : Option Nat}
    (active : this.system current ≠ .ended) (calm : this.fState ≠ .eStartRequested)
    (ok : SystemOk fState fThreadId this.callers current pc) :
    Inv ({ this with fState := fState, fThreadId := fThreadId }.systemTo current pc) where
  starters := inv.starters
  requested := by
    intro c starts
    exact absurd (inv.requested c starts) calm
  fresh := by
    intro other above
    have different : other ≠ current := by
      intro same
      rw [same] at above
      exact active (inv.fresh current above)
    dsimp only [systemTo]
    rw [update_of_ne different]
    exact inv.fresh other above
  single := by
    have only : ∀ other, Function.update this.system current pc other ≠
        .ended → other = current := by
      intro other running
      rw [update_apply] at running
      split at running
      · rename_i same
        exact same
      · exact inv.single other current running active
    intro first second running alsoRunning
    exact (only first running).trans (only second alsoRunning).symm
  states := by
    intro other
    dsimp only [systemTo]
    by_cases same : other = current
    · rw [same, update_self]
      exact ok
    · rw [update_of_ne same]
      have ended : this.system other = .ended := by
        by_contra running
        exact same (inv.single other current running active)
      rw [ended]
      trivial

omit [DecidableEq ι] in
theorem Inv.not_requested {current : Nat} {pc : SystemPc}
    (place : this.system current = pc) (past : pc ≠ .checkStarted ∧ pc ≠ .ended) :
    this.fState ≠ .eStartRequested := by
  intro requested
  have ok := inv.states current
  rw [place, requested] at ok
  cases pc with
  | checkStarted => exact past.1 rfl
  | setRunning | runMethod | leaveRun =>
    rcases ok with ⟨other | other, _⟩ <;> cases other
  | resetId | exit =>
    rcases ok with ⟨other, _⟩
    cases other
  | ended => exact past.2 rfl

omit [DecidableEq ι] in
theorem Inv.goOn {current : Nat} {pc next : SystemPc}
    {fState : EThreadState} {fThreadId : Option Nat}
    (place : this.system current = pc) (past : pc ≠ .checkStarted ∧ pc ≠ .ended)
    (ok : SystemOk fState fThreadId this.callers current next) :
    Inv ({ this with fState := fState, fThreadId := fThreadId }.systemTo current next) := by
  apply inv.systemStep _ (inv.not_requested place past) ok
  rw [place]
  exact past.2

omit [DecidableEq ι] in
theorem Inv.systemChecks {current : Nat} (place : this.system current = .checkStarted)
    (late : ¬ this.fState.value < EThreadState.eStarted.value) :
    Inv (this.systemTo current (if this.fState = .eStarted then .setRunning else .leaveRun)) := by
  have active : this.system current ≠ .ended := by
    rw [place]
    nofun
  have calm : this.fState ≠ .eStartRequested := by
    intro same
    rw [same] at late
    exact late (by decide)
  have ok := inv.states current
  rw [place] at ok
  rcases ok with ⟨same, _⟩ | ⟨which, known⟩
  · exact absurd same calm
  · split
    · rename_i started
      exact inv.systemStep active calm ⟨Or.inl started, known⟩
    · rename_i notStarted
      have requested : this.fState = .eTerminationRequested := by
        rcases which with same | same | same
        · rw [same] at late
          exact absurd (by decide) late
        · exact absurd same notStarted
        · exact same
      exact inv.systemStep active calm ⟨Or.inr requested, known⟩

omit [DecidableEq ι] in
theorem Inv.systemSetsRunning {current : Nat} (place : this.system current = .setRunning) :
    Inv ((this.systemSets current .eRunning).1.systemTo current
      (if (this.systemSets current .eRunning).2 then .runMethod
        else .leaveRun)) ∧
    Forward this.fState (this.systemSets current .eRunning).1.fState := by
  have ok := inv.states current
  rw [place] at ok
  rcases ok with ⟨which, known⟩
  have past : SystemPc.setRunning ≠ .checkStarted ∧ SystemPc.setRunning ≠ .ended := ⟨nofun, nofun⟩
  have sets := setState_running this.fState (this.fThreadId = some current)
  rcases which with same | same
  · rw [if_pos same] at sets
    simp only [systemSets, sets]
    refine ⟨inv.goOn place past ⟨Or.inl rfl, known⟩, ?_⟩
    rw [same]
    exact Or.inl (by decide)
  · rw [if_neg (by rw [same]; nofun)] at sets
    simp only [systemSets, sets]
    exact ⟨inv.goOn place past ⟨Or.inr same, known⟩, forward_refl _⟩

omit [DecidableEq ι] in
theorem Inv.systemLeaves {current : Nat} (place : this.system current = .leaveRun) :
    Inv ((this.systemSets current .eTerminatedRunMethod).1.systemTo current
      .resetId) ∧
    Forward this.fState (this.systemSets current .eTerminatedRunMethod).1.fState := by
  have ok := inv.states current
  rw [place] at ok
  rcases ok with ⟨which, known⟩
  have mine : decide (this.fThreadId = some current) = true := decide_eq_true known
  simp only [systemSets, mine, setState_terminatedRunMethod]
  refine ⟨inv.goOn place ⟨nofun, nofun⟩ ⟨rfl, known⟩, ?_⟩
  rcases which with same | same <;> rw [same] <;> exact Or.inl (by decide)

omit [DecidableEq ι] in
theorem Inv.systemExits {current : Nat} (place : this.system current = .exit) :
    Inv ((this.systemSets current .eTerminated).1.systemTo current .ended) ∧
    Forward this.fState (this.systemSets current .eTerminated).1.fState := by
  have ok := inv.states current
  rw [place] at ok
  rcases ok with ⟨same, unknown⟩
  -- `Exit` has reset the id, so only the step by one applies.
  have mine : decide (this.fThreadId = some current) = false := by
    rw [unknown]
    exact decide_eq_false nofun
  simp only [systemSets, mine, setState_terminated, if_pos same]
  refine ⟨inv.goOn place ⟨nofun, nofun⟩ trivial, ?_⟩
  rw [same]
  exact Or.inl (by decide)

omit [DecidableEq ι] in
theorem Inv.stepSystem {current : Nat} (steps : this.stepSystem current = some after) :
    Inv after ∧ Forward this.fState after.fState := by
  have ok := inv.states current
  unfold ThreadObject.stepSystem at steps
  split at steps
  case h_1 place =>
      split at steps
      · cases steps
      · rename_i late
        have checks := inv.systemChecks place late
        split at steps <;> rename_i which <;> cases steps
        · rw [if_pos which] at checks
          exact ⟨checks, forward_refl _⟩
        · rw [if_neg which] at checks
          exact ⟨checks, forward_refl _⟩
  case h_2 place =>
      cases steps
      exact inv.systemSetsRunning place
  case h_3 place =>
      rw [place] at ok
      cases steps
      exact ⟨inv.goOn place ⟨nofun, nofun⟩ ok, forward_refl _⟩
  case h_4 place =>
      cases steps
      exact inv.systemLeaves place
  case h_5 place =>
      rw [place] at ok
      cases steps
      exact ⟨inv.goOn place ⟨nofun, nofun⟩ ⟨ok.1, rfl⟩, forward_refl _⟩
  case h_6 place =>
      cases steps
      exact inv.systemExits place
  case h_7 => cases steps

theorem Inv.step {move : ThreadMove ι} (meets : Meets this move)
    (steps : this.step move = some after) :
    Inv after ∧ Forward this.fState after.fState := by
  cases move with
  | start caller allocator | terminate caller | checkState caller state =>
    dsimp only [ThreadObject.step] at steps
    split at steps <;> cases steps
    rename_i idle
    exact ⟨inv.moveTo (not_starting idle id) id, forward_refl _⟩
  | caller caller succeeds =>
    exact ⟨inv.stepCaller meets steps, forward_stepCaller steps⟩
  | system current => exact inv.stepSystem steps

end

omit [DecidableEq ι] in
theorem new_inv : Inv (new : ThreadObject ι) where
  starters := by
    intro c _ starts
    exact absurd starts id
  requested := by
    intro c starts
    exact absurd starts id
  fresh := fun _ _ => rfl
  single := by
    intro first _ running
    exact absurd rfl running
  states := fun _ => trivial

end

/-- A thread that has terminated has no system thread before the end of its
`IntRun`, and the next step that meets the condition moves the state
forward. -/
structure Sound [DecidableEq ι] (this : ThreadObject ι) : Prop where
  terminated : this.fState = .eTerminated → ∀ id, ¬ InIntRun (this.system id)
  forward : ∀ move after, Meets this move → this.step move = some after →
    Forward this.fState after.fState

section

variable [DecidableEq ι]

theorem Inv.sound {this : ThreadObject ι} (inv : Inv this) : Sound this where
  terminated := by
    intro hasEnded current running
    rw [inv.all_ended (Or.inr (Or.inl hasEnded)) current] at running
    exact running
  forward := fun _ _ meets steps => (inv.step meets steps).2

/-- In every run in which no request for termination comes between the
requested start of a thread and its system thread. -/
theorem new_run_sound {this : ThreadObject ι} {moves : List (ThreadMove ι)}
    (along : Along step Meets new moves) (runs : run step new moves = some this) : Sound this := by
  have keeps : ∀ (before : ThreadObject ι) move after, Inv before →
      Meets before move → before.step move = some after → Inv after :=
    fun _ _ _ inv meets steps => (inv.step meets steps).1
  exact (run_invariant keeps new_inv along runs).sound

end

theorem meets_calm {this : ThreadObject Bool} {caller : Bool} {succeeds : Bool} {pc : CallerPc}
    (place : this.callers caller = pc) (calm : pc ≠ .withdraw ∧ pc ≠ .terminate) :
    Meets this (.caller caller succeeds) := by
  intro either
  rw [place] at either
  rcases either with same | same
  · exact absurd same calm.1
  · exact absurd same calm.2

/-- One caller starts the thread and another one terminates it. -/
theorem new_run_sound_terminate :
    ∃ this : ThreadObject Bool, run step new
        ([ThreadMove.start false true] ++ List.replicate 8 (ThreadMove.caller false true) ++
          List.replicate 2 (ThreadMove.system 0) ++
          [ThreadMove.terminate true, .caller true true] ++
          List.replicate 4 (ThreadMove.system 0)) = some this ∧
      this.fState = .eTerminated ∧ Sound this := by
  have along : Along step Meets (new : ThreadObject Bool)
      ([ThreadMove.start false true] ++ List.replicate 8 (ThreadMove.caller false true) ++
        List.replicate 2 (ThreadMove.system 0) ++
        [ThreadMove.terminate true, .caller true true] ++
        List.replicate 4 (ThreadMove.system 0)) := by
    refine .cons trivial rfl (.cons (meets_calm rfl ⟨nofun, nofun⟩) rfl ?_)
    refine .cons (meets_calm rfl ⟨nofun, nofun⟩) rfl ?_
    refine .cons (meets_calm rfl ⟨nofun, nofun⟩) rfl ?_
    refine .cons (meets_calm rfl ⟨nofun, nofun⟩) rfl ?_
    refine .cons (meets_calm rfl ⟨nofun, nofun⟩) rfl ?_
    refine .cons (meets_calm rfl ⟨nofun, nofun⟩) rfl ?_
    refine .cons (meets_calm rfl ⟨nofun, nofun⟩) rfl ?_
    refine .cons (meets_calm rfl ⟨nofun, nofun⟩) rfl ?_
    refine .cons trivial rfl (.cons trivial rfl (.cons trivial rfl ?_))
    refine .cons (fun _ => nofun) rfl ?_
    refine .cons trivial rfl (.cons trivial rfl ?_)
    exact .cons trivial rfl (.cons trivial rfl trivial)
  exact ⟨_, rfl, rfl, new_run_sound along rfl⟩

/-- A request for termination comes between the requested start and the
creation of the system thread: the state is `eTerminated` while the system
thread is in its `IntRun`, and goes back to `eTerminatedRunMethod`. -/
theorem not_new_run_sound :
    (¬ ∀ (moves : List (ThreadMove Bool)) (this : ThreadObject Bool),
      run step new moves = some this → this.fState = .eTerminated →
        ∀ id, ¬ InIntRun (this.system id)) ∧
    ¬ ∀ (moves : List (ThreadMove Bool)) (this : ThreadObject Bool),
      run step new moves = some this →
        ∀ move after, this.step move = some after → Forward this.fState after.fState := by
  constructor
  · intro always
    have terminated := always
      ([ThreadMove.start false true] ++ List.replicate 4 (ThreadMove.caller false true) ++
        [ThreadMove.terminate true, .caller true true] ++
        List.replicate 2 (ThreadMove.caller false true) ++ [ThreadMove.system 0]) _ rfl
    exact terminated rfl 0 trivial
  · intro always
    have forward := always
      ([ThreadMove.start false true] ++ List.replicate 4 (ThreadMove.caller false true) ++
        [ThreadMove.terminate true, .caller true true] ++
        List.replicate 2 (ThreadMove.caller false true) ++ [ThreadMove.system 0]) _ rfl
        (.system 0) _ rfl
    rcases forward with le | ⟨_, back⟩
    · exact absurd le (by decide)
    · cases back

end ThreadObject

end Coast
