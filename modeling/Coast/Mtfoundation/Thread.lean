import Coast.Library.Runs

/-!
# The states of a thread

`Start`, `Terminate`, state queries and the system thread set and read the
state in sections that are locked by the state mutex.
-/

namespace Coast

/-- The states of a thread, in their order. -/
inductive EThreadState where
  | eCreated
  | eStartRequested
  | eStartInProgress
  | eStarted
  | eRunning
  | eTerminationRequested
  | eTerminatedRunMethod
  | eTerminated
  deriving DecidableEq, Repr

def EThreadState.value : EThreadState → Nat
  | .eCreated => 0
  | .eStartRequested => 1
  | .eStartInProgress => 2
  | .eStarted => 3
  | .eRunning => 4
  | .eTerminationRequested => 5
  | .eTerminatedRunMethod => 6
  | .eTerminated => 7

/-- Where a caller is in `Start`, `Terminate` or `CheckState`; `allocator`
says whether `Start` finds one. -/
inductive CallerPc where
  | idle
  | aliveCheck (allocator : Bool)
  | terminatedCheck (allocator : Bool)
  | recreate (allocator : Bool)
  | createdCheck (allocator : Bool)
  | request
  | startThread
  | storeId (id : Nat)
  | inProgress
  | started
  | withdraw
  | terminate
  | check (state : EThreadState)
  deriving DecidableEq, Repr

/-- Where a system thread is in `IntRun` and `Exit`. -/
inductive SystemPc where
  | checkStarted
  | setRunning
  | runMethod
  | leaveRun
  | resetId
  | exit
  | ended
  deriving DecidableEq, Repr

/-- The thread object, its callers and the system threads that `Start` has
created for it. -/
structure ThreadObject (ι : Type) where
  fState : EThreadState
  fThreadId : Option Nat
  callers : ι → CallerPc
  system : Nat → SystemPc
  created : Nat

inductive ThreadMove (ι : Type) where
  | start (caller : ι) (allocator : Bool)
  | terminate (caller : ι)
  | checkState (caller : ι) (state : EThreadState)
  /-- The call goes on; the start hook, the creation of the system thread and
  a wait may fail. -/
  | caller (caller : ι) (succeeds : Bool)
  /-- The system thread goes on. -/
  | system (id : Nat)
  deriving DecidableEq, Repr

namespace ThreadObject

/-- `IntSetState`; the hook of `eStartRequested` may refuse. -/
def intSetState (fState : EThreadState) (accepts : Bool)
    (state : EThreadState) : EThreadState × Bool :=
  if state = .eStartRequested && !accepts then (fState, false)
  else (state, true)

/-- The next state is taken, or termination in front of its turn. -/
def setState (fState : EThreadState) (mine accepts : Bool)
    (state : EThreadState) : EThreadState × Bool :=
  if state.value = fState.value + 1 then intSetState fState accepts state
  else if state = .eTerminationRequested &&
      fState.value < EThreadState.eTerminationRequested.value then
    intSetState fState accepts
      (if fState = .eCreated || fState = .eStartRequested then .eTerminated
      else state)
  else if fState = .eTerminated && state = .eCreated then
    intSetState fState accepts state
  else if state = .eTerminatedRunMethod && mine then
    intSetState fState accepts state
  else if state = .eTerminated && mine then
    intSetState fState accepts state
  else (fState, false)

variable {ι : Type} [DecidableEq ι]

def moveTo (this : ThreadObject ι) (caller : ι) (pc : CallerPc) : ThreadObject ι :=
  { this with callers := Function.update this.callers caller pc }

def systemTo (this : ThreadObject ι) (id : Nat) (pc : SystemPc) : ThreadObject ι :=
  { this with system := Function.update this.system id pc }

/-- A caller's state change; callers are not the system thread, whose id
only counts for the states that callers do not ask for. -/
def callerSets (this : ThreadObject ι) (accepts : Bool)
    (state : EThreadState) : ThreadObject ι × Bool :=
  ({ this with fState := (setState this.fState false accepts state).1 },
    (setState this.fState false accepts state).2)

/-- The next step of a thread in `Start`, `Terminate` or `CheckState`. -/
def stepCaller (this : ThreadObject ι) (caller : ι) (succeeds : Bool) : Option (ThreadObject ι) :=
  match this.callers caller with
  | .idle => none
  | .aliveCheck allocator =>
    if EThreadState.eCreated.value < this.fState.value &&
        this.fState.value < EThreadState.eTerminated.value then
      some (this.moveTo caller .idle)
    else some (this.moveTo caller (.terminatedCheck allocator))
  | .terminatedCheck allocator =>
    if this.fState = .eTerminated then
      some (this.moveTo caller (.recreate allocator))
    else some (this.moveTo caller (.createdCheck allocator))
  | .recreate allocator =>
    some ((this.callerSets true .eCreated).1.moveTo caller (.createdCheck allocator))
  | .createdCheck allocator =>
    if this.fState.value < EThreadState.eStartRequested.value &&
        allocator then
      some (this.moveTo caller .request)
    else some (this.moveTo caller .withdraw)
  | .request =>
    let (after, done) := this.callerSets succeeds .eStartRequested
    some (after.moveTo caller (if done then .startThread else .withdraw))
  | .startThread =>
    if succeeds then
      some ({ this.systemTo this.created .checkStarted with
        created := this.created + 1 }.moveTo caller (.storeId this.created))
    else some ({ this with fThreadId := none }.moveTo caller .idle)
  | .storeId id =>
    some ({ this with fThreadId := some id }.moveTo caller .inProgress)
  | .inProgress =>
    some ((this.callerSets true .eStartInProgress).1.moveTo caller .started)
  | .started =>
    some ((this.callerSets true .eStarted).1.moveTo caller .idle)
  | .withdraw =>
    some ((this.callerSets true .eTerminationRequested).1.moveTo caller .idle)
  | .terminate =>
    some ((this.callerSets true .eTerminationRequested).1.moveTo caller (.check .eTerminated))
  | .check state =>
    if state.value ≤ this.fState.value || !succeeds then
      some (this.moveTo caller .idle)
    else none

def systemSets (this : ThreadObject ι) (id : Nat) (state : EThreadState) : ThreadObject ι × Bool :=
  ({ this with
      fState := (setState this.fState (this.fThreadId = some id) true state).1 },
    (setState this.fState (this.fThreadId = some id) true state).2)

/-- The next step of the system thread with this number. -/
def stepSystem (this : ThreadObject ι) (id : Nat) : Option (ThreadObject ι) :=
  match this.system id with
  | .checkStarted =>
    if this.fState.value < EThreadState.eStarted.value then none
    else if this.fState = .eStarted then
      some (this.systemTo id .setRunning)
    else some (this.systemTo id .leaveRun)
  | .setRunning =>
    let (after, done) := this.systemSets id .eRunning
    some (after.systemTo id (if done then .runMethod else .leaveRun))
  | .runMethod => some (this.systemTo id .leaveRun)
  | .leaveRun =>
    some ((this.systemSets id .eTerminatedRunMethod).1.systemTo id .resetId)
  | .resetId => some ({ this with fThreadId := none }.systemTo id .exit)
  | .exit => some ((this.systemSets id .eTerminated).1.systemTo id .ended)
  | .ended => none

/-- A call begins, or goes on, or the system thread does. -/
def step (this : ThreadObject ι) : ThreadMove ι → Option (ThreadObject ι)
  | .start caller allocator =>
    if this.callers caller = .idle then
      some (this.moveTo caller (.aliveCheck allocator))
    else none
  | .terminate caller =>
    if this.callers caller = .idle then
      some (this.moveTo caller .terminate)
    else none
  | .checkState caller state =>
    if this.callers caller = .idle then
      some (this.moveTo caller (.check state))
    else none
  | .caller caller succeeds => this.stepCaller caller succeeds
  | .system id => this.stepSystem id

def new : ThreadObject ι := ⟨.eCreated, none, fun _ => .idle, fun _ => .ended, 0⟩

end ThreadObject

end Coast
