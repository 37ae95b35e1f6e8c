import Coast.Mtfoundation.Thread
import Mathlib.Algebra.Ring.Nat

/-!
# A pool of threads and its counters

`ThreadPoolManager` observes its threads.  A thread tells its observers about
a state that it takes in the section that is locked by its state mutex, so a
change and what the pool counts of it are one step.
-/

namespace Coast

inductive ERunningState where
  | eReady
  | eWorking
  deriving DecidableEq, Repr

def setRunningState (fState : EThreadState) (fRunningState : ERunningState)
    (state : ERunningState) : ERunningState × Bool :=
  if fState ≠ .eRunning || fRunningState = state then (fRunningState, false)
  else (state, true)

inductive EWPMStatEvt where
  | eEnter
  | eLeave
  deriving DecidableEq, Repr

/-- `WPMStatHandler` without its timer. -/
structure WPMStatHandler where
  fMaxParallelRequests : Int
  fCurrentParallelRequests : Int
  fTotalRequests : Nat
  deriving DecidableEq, Repr

namespace WPMStatHandler

def new : WPMStatHandler := ⟨0, 0, 0⟩

/-- The requests in parallel, and the most there have been. -/
def handleStatEvt (this : WPMStatHandler) : EWPMStatEvt → WPMStatHandler
  | .eEnter =>
    { this with
      fCurrentParallelRequests := this.fCurrentParallelRequests + 1
      fMaxParallelRequests :=
        if this.fMaxParallelRequests < this.fCurrentParallelRequests + 1
        then this.fCurrentParallelRequests + 1
        else this.fMaxParallelRequests }
  | .eLeave =>
    { this with
      fCurrentParallelRequests := this.fCurrentParallelRequests - 1
      fTotalRequests := this.fTotalRequests + 1 }

/-- `Update` counts the thread events. -/
def update (this : WPMStatHandler) : ERunningState → WPMStatHandler
  | .eReady => this.handleStatEvt .eLeave
  | .eWorking => this.handleStatEvt .eEnter

end WPMStatHandler

namespace ThreadObject

variable {ι : Type} [DecidableEq ι]

/-- The state that observers are told of when `SetState` takes it. -/
def event (fState : EThreadState) (mine accepts : Bool)
    (state : EThreadState) : Option EThreadState :=
  if (setState fState mine accepts state).2 then
    some (setState fState mine accepts state).1
  else none

/-- The event that a step of the thread gives to its observers. -/
def notifies (this : ThreadObject ι) : ThreadMove ι → Option EThreadState
  | .caller caller succeeds =>
    match this.callers caller with
    | .recreate _ => event this.fState false true .eCreated
    | .request => event this.fState false succeeds .eStartRequested
    | .inProgress => event this.fState false true .eStartInProgress
    | .started => event this.fState false true .eStarted
    | .withdraw | .terminate =>
      event this.fState false true .eTerminationRequested
    | _ => none
  | .system id =>
    match this.system id with
    | .setRunning =>
      event this.fState (this.fThreadId = some id) true .eRunning
    | .leaveRun =>
      event this.fState (this.fThreadId = some id) true .eTerminatedRunMethod
    | .exit =>
      event this.fState (this.fThreadId = some id) true .eTerminated
    | _ => none
  | _ => none

end ThreadObject

/-- A thread of a pool.  The code has no `reached`, which says that the thread
has reached `eRunning` and not yet `eTerminated`, and no `processing`, which
says that it was given work and has not yet called `SetReady` or returned from
its run method. -/
structure PoolThread (ι : Type) where
  thread : ThreadObject ι
  fRunningState : ERunningState
  reached : Bool
  processing : Bool

/-- The threads of a pool and the counters. -/
structure ThreadPoolManager (κ ι : Type) where
  fThreadPool : κ → PoolThread ι
  fRunningThreads : Int
  fStartedThreads : Int
  fTerminatedThreads : Int
  fpStatEvtHandler : WPMStatHandler

inductive ThreadPoolMove (κ ι : Type) where
  /-- A step of `Start`, `Terminate` or the system thread. -/
  | thread (k : κ) (move : ThreadMove ι)
  | setWorking (k : κ)
  | setReady (k : κ)
  deriving DecidableEq, Repr

namespace PoolThread

variable {ι : Type} [DecidableEq ι]

def new : PoolThread ι := ⟨.new, .eReady, false, false⟩

def returns (this : PoolThread ι) : ThreadMove ι → Bool
  | .system id => this.thread.system id = .runMethod
  | _ => false

def reachedBy (reached : Bool) : Option EThreadState → Bool
  | some .eRunning => true
  | some .eTerminated => false
  | _ => reached

/-- One step of a pool thread, with what the pool counts of it. -/
def step (this : PoolThread ι) (move : ThreadMove ι) : Option (PoolThread ι) := do
  let thread ← this.thread.step move
  some { this with
    thread := thread
    reached := reachedBy this.reached (this.thread.notifies move)
    processing := this.processing && !this.returns move }

/-- The worker takes the workload if its states allow it. -/
def setWorking (this : PoolThread ι) : PoolThread ι × Bool :=
  let result := setRunningState this.thread.fState this.fRunningState .eWorking
  ({ this with
    fRunningState := result.1
    processing := this.processing || result.2 }, result.2)

def setReady (this : PoolThread ι) : PoolThread ι × Bool :=
  let result := setRunningState this.thread.fState this.fRunningState .eReady
  ({ this with fRunningState := result.1, processing := false }, result.2)

end PoolThread

namespace ThreadPoolManager

variable {κ ι : Type} [DecidableEq κ] [DecidableEq ι]

def new : ThreadPoolManager κ ι := ⟨fun _ => .new, 0, 0, 0, .new⟩

def setThread (this : ThreadPoolManager κ ι) (k : κ) (t : PoolThread ι) : ThreadPoolManager κ ι :=
  { this with fThreadPool := Function.update this.fThreadPool k t }

/-- `Update` counts the states that the threads announce. -/
def update (this : ThreadPoolManager κ ι) : Option EThreadState → ThreadPoolManager κ ι
  | some .eStarted =>
    { this with fStartedThreads := this.fStartedThreads + 1 }
  | some .eRunning =>
    { this with fRunningThreads := this.fRunningThreads + 1 }
  | some .eTerminated =>
    { this with
      fRunningThreads := this.fRunningThreads - 1
      fTerminatedThreads := this.fTerminatedThreads + 1 }
  | _ => this

def updateRunning (this : ThreadPoolManager κ ι) (state : ERunningState)
    (done : Bool) : ThreadPoolManager κ ι :=
  if done then
    { this with fpStatEvtHandler := this.fpStatEvtHandler.update state }
  else this

/-- One step of a thread of the pool, or of its hooks. -/
def step (this : ThreadPoolManager κ ι) : ThreadPoolMove κ ι → Option (ThreadPoolManager κ ι)
  | .thread k move => do
      let t ← (this.fThreadPool k).step move
      some ((this.setThread k t).update ((this.fThreadPool k).thread.notifies move))
  | .setWorking k =>
    let (t, done) := (this.fThreadPool k).setWorking
    some ((this.setThread k t).updateRunning .eWorking done)
  | .setReady k =>
    let (t, done) := (this.fThreadPool k).setReady
    some ((this.setThread k t).updateRunning .eReady done)

def join (this : ThreadPoolManager κ ι) (lWaited lMaxSecsToWait : Int) : Option Int :=
  if (0 < this.fRunningThreads ||
      this.fTerminatedThreads < this.fStartedThreads) &&
      lWaited < lMaxSecsToWait then none
  else some this.fRunningThreads

def awaitReady (this : ThreadPoolManager κ ι) : Bool :=
  this.fpStatEvtHandler.fCurrentParallelRequests ≤ 0

end ThreadPoolManager

/-!
## A pool of workers

Clients hand over workloads in `WorkerPoolManager::Enter` under the mutex of
the pool, and the workers wait for them in their cycle.  The pool was
initialised, so all workers have reached `eRunning`.
-/

/-- A workload; the code has no numbers, which tell the calls of `Enter`
apart. -/
structure Workload (ω : Type) where
  number : Nat
  args : ω
  deriving DecidableEq, Repr

inductive WorkerPc where
  | checkRunningState
  | processWorkload
  | setReady
  | leaveRun
  | exit
  | ended
  deriving DecidableEq, Repr

/-- A `WorkerThread`.  `accepted` and `processed` are not in the code: the
workloads that it was given and that it has processed. -/
structure Worker (ω : Type) where
  fState : EThreadState
  fRunningState : ERunningState
  /-- What `DoWorkingHook` has stored. -/
  workload : Option (Workload ω)
  pc : WorkerPc
  accepted : List (Workload ω)
  processed : List (Workload ω)

inductive EnterPc (n : Nat) (ω : Type) where
  | idle
  /-- Waits for the mutex of the pool. -/
  | lock (workload : Workload ω) (hint : Int)
  /-- Looks whether it may go on. -/
  | find (workload : Workload ω) (hint : Int)
  /-- Has released the mutex in a wait. -/
  | wait (workload : Workload ω) (hint : Int)
  /-- Asks a worker whether it is ready. -/
  | scan (workload : Workload ω) (k : Fin n)
  /-- Sets a worker to work. -/
  | setWorking (workload : Workload ω) (k : Fin n)
  deriving DecidableEq, Repr

/-- `WorkerPoolManager`; `entered` and `refused` are not in the code: how many
calls of `Enter` there were, and the workloads whose `Enter` returned
false. -/
structure WorkerPool (n : Nat) (ι ω : Type) where
  workers : Fin n → Worker ω
  fBlockRequestHandling : Bool
  fpStatEvtHandler : WPMStatHandler
  /-- Who has the mutex of the pool. -/
  fMutex : Option ι
  clients : ι → EnterPc n ω
  entered : Nat
  refused : List (Workload ω)

inductive WorkerPoolMove (n : Nat) (ι ω : Type) where
  | enter (client : ι) (args : ω) (hint : Int)
  /-- A client goes on; it may find a state mutex locked. -/
  | client (client : ι) (couldLock : Bool)
  | worker (k : Fin n)
  | blockRequests
  | unblockRequests
  /-- The request that `Terminate` makes to a worker. -/
  | terminate (k : Fin n)
  deriving DecidableEq, Repr

namespace Worker

variable {ω : Type}

def new : Worker ω := ⟨.eRunning, .eReady, none, .checkRunningState, [], []⟩

def setWorking (this : Worker ω) (workload : Workload ω) : Worker ω × Bool :=
  let result := setRunningState this.fState this.fRunningState .eWorking
  (if result.2 then
    { this with
      fRunningState := result.1
      workload := some workload
      accepted := this.accepted ++ [workload] }
  else this, result.2)

def terminate (this : Worker ω) : Worker ω :=
  { this with
    fState := (ThreadObject.setState this.fState false true .eTerminationRequested).1 }

/-- One turn of the `Run` of a worker, and the hook it calls. -/
def step (this : Worker ω) : Option (Worker ω × Option ERunningState) :=
  match this.pc with
  | .checkRunningState =>
    if this.fState ≠ .eRunning then
      some ({ this with pc := .leaveRun }, none)
    else if this.fRunningState = .eWorking then
      some ({ this with pc := .processWorkload }, none)
    else none
  | .processWorkload =>
    some ({ this with
      pc := .setReady
      processed := this.processed ++ this.workload.toList }, none)
  | .setReady =>
    let result := setRunningState this.fState this.fRunningState .eReady
    some ({ this with
      pc := .checkRunningState
      fRunningState := result.1 },
      if result.2 then some .eReady else none)
  | .leaveRun =>
    some ({ this with
      pc := .exit
      fState := (ThreadObject.setState this.fState true true .eTerminatedRunMethod).1 }, none)
  | .exit =>
    some ({ this with
      pc := .ended
      fState := (ThreadObject.setState this.fState false true .eTerminated).1 }, none)
  | .ended => none

end Worker

namespace WorkerPool

variable {n : Nat} {ι ω : Type}

def new : WorkerPool n ι ω := ⟨fun _ => .new, false, .new, none, fun _ => .idle, 0, []⟩

def setWorker (this : WorkerPool n ι ω) (k : Fin n) (worker : Worker ω) : WorkerPool n ι ω :=
  { this with workers := Function.update this.workers k worker }

/-- `Update` counts the workers that work. -/
def update (this : WorkerPool n ι ω) : Option ERunningState → WorkerPool n ι ω
  | some state =>
    { this with fpStatEvtHandler := this.fpStatEvtHandler.update state }
  | none => this

variable [DecidableEq ι]

def moveTo (this : WorkerPool n ι ω) (client : ι) (pc : EnterPc n ω) : WorkerPool n ι ω :=
  { this with clients := Function.update this.clients client pc }

variable [NeZero n]

def firstWorker (lCurrRequests hint : Int) : Fin n :=
  if hint < 0 then Fin.ofNat n (lCurrRequests + 1).toNat
  else Fin.ofNat n hint.toNat

/-- The next step of a client in `Enter`. -/
def stepClient (this : WorkerPool n ι ω) (client : ι) (couldLock : Bool) :
    Option (WorkerPool n ι ω) :=
  match this.clients client with
  | .idle => none
  | .lock workload hint =>
    if this.fMutex.isNone then
      some ({ this with fMutex := some client }.moveTo client (.find workload hint))
    else none
  | .find workload hint =>
    let lCurrRequests := this.fpStatEvtHandler.fCurrentParallelRequests
    if n ≤ lCurrRequests ∨ this.fBlockRequestHandling = true then
      some ({ this with fMutex := none }.moveTo client (.wait workload hint))
    else
      some (this.moveTo client (.scan workload (firstWorker lCurrRequests hint)))
  | .wait workload hint =>
    if this.fMutex.isNone then
      some ({ this with fMutex := some client }.moveTo client (.find workload hint))
    else none
  | .scan workload k =>
    if couldLock ∧ (this.workers k).fState = .eRunning ∧
        (this.workers k).fRunningState = .eReady then
      some (this.moveTo client (.setWorking workload k))
    else some (this.moveTo client (.scan workload (k + 1)))
  | .setWorking workload k =>
    let result := (this.workers k).setWorking workload
    some ({ (this.setWorker k result.1).update
        (if result.2 then some .eWorking else none) with
      fMutex := none
      refused := if result.2 then this.refused
        else this.refused ++ [workload] }.moveTo client .idle)

/-- One step of a client, of a worker, or a termination. -/
def step (this : WorkerPool n ι ω) : WorkerPoolMove n ι ω → Option (WorkerPool n ι ω)
  | .enter client args hint =>
    match this.clients client with
    | .idle =>
      some ({ this with entered := this.entered + 1 }.moveTo client
        (.lock ⟨this.entered, args⟩ hint))
    | _ => none
  | .client client couldLock => this.stepClient client couldLock
  | .worker k => do
      let result ← (this.workers k).step
      some ((this.setWorker k result.1).update result.2)
  | .blockRequests =>
    if this.fMutex.isNone then
      some { this with fBlockRequestHandling := true }
    else none
  | .unblockRequests =>
    if this.fMutex.isNone then
      some { this with fBlockRequestHandling := false }
    else none
  | .terminate k => some (this.setWorker k (this.workers k).terminate)

end WorkerPool

end Coast
