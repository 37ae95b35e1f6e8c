import Coast.Library.Ownership
import Coast.Mtfoundation.ThreadPools
import Coast.Mtfoundation.ThreadStates

/-!
# What a pool counts

As long as a thread is terminated only while it runs and has no work, and its
run method returns without work, the pool counts the threads that run and the
threads that work.
-/

namespace Coast

open Runs Option

namespace ThreadObject

/-- The thread has reached `eRunning` and not yet `eTerminated`, if it was
not terminated before. -/
def active : EThreadState → Bool
  | .eRunning | .eTerminationRequested | .eTerminatedRunMethod => true
  | _ => false

/-- The changes of a thread that is terminated only while it runs. -/
inductive Next : EThreadState → EThreadState → Prop where
  | again : Next .eTerminated .eCreated
  | requested : Next .eCreated .eStartRequested
  | inProgress : Next .eStartRequested .eStartInProgress
  | started : Next .eStartInProgress .eStarted
  | running : Next .eStarted .eRunning
  | terminationRequested : Next .eRunning .eTerminationRequested
  | returned : Next .eRunning .eTerminatedRunMethod
  | terminatedRunMethod : Next .eTerminationRequested .eTerminatedRunMethod
  | terminated : Next .eTerminatedRunMethod .eTerminated

variable {ι : Type} {this : ThreadObject ι}

/-- The step asks for the termination of the thread: `Terminate`, or a `Start`
that fails. -/
def Requests (this : ThreadObject ι) : ThreadMove ι → Prop
  | .caller caller _ =>
    this.callers caller = .withdraw ∨ this.callers caller = .terminate
  | _ => False

def Ends (this : ThreadObject ι) : ThreadMove ι → Prop
  | .system id => this.system id = .runMethod ∨ this.system id = .leaveRun
  | _ => False

/-- A request finds a thread that runs or one that was requested before. -/
def Late (fState : EThreadState) : Prop :=
  fState = .eRunning ∨ EThreadState.eTerminationRequested.value ≤ fState.value

variable {fState s : EThreadState}

theorem event_next_created (told : event fState false true .eCreated = some s) : Next fState s := by
  cases fState <;> cases told
  exact .again

theorem event_next_startRequested {accepts : Bool}
    (told : event fState false accepts .eStartRequested = some s) :
    Next fState s := by
  cases accepts <;> cases fState <;> cases told
  exact .requested

theorem event_next_startInProgress (told : event fState false true .eStartInProgress = some s) :
    Next fState s := by
  cases fState <;> cases told
  exact .inProgress

theorem event_next_started (told : event fState false true .eStarted = some s) : Next fState s := by
  cases fState <;> cases told
  exact .started

theorem event_next_terminationRequested (late : Late fState)
    (told : event fState false true .eTerminationRequested = some s) :
    Next fState s := by
  rcases late with same | le
  · rw [same] at told ⊢
    cases told
    exact .terminationRequested
  · cases fState <;> first
      | exact absurd le (by decide)
      | cases told

theorem event_next_running {mine : Bool}
    (told : event fState mine true .eRunning = some s) : Next fState s := by
  cases mine <;> cases fState <;> cases told <;> exact .running

theorem setState_or (fState : EThreadState) (mine accepts : Bool) (state : EThreadState) :
    (setState fState mine accepts state).2 = true ∨
      (setState fState mine accepts state).1 = fState := by
  have asked (next : EThreadState) :
      (intSetState fState accepts next).2 = true ∨
        (intSetState fState accepts next).1 = fState := by
    unfold intSetState
    split
    · exact .inr rfl
    · exact .inl rfl
  unfold setState
  repeat' split
  all_goals first
    | exact asked _
    | exact .inr rfl

theorem getD_event (fState : EThreadState) (mine accepts : Bool) (state : EThreadState) :
    (event fState mine accepts state).getD fState = (setState fState mine accepts state).1 := by
  unfold event
  split
  · rfl
  · rename_i refused
    exact ((setState_or fState mine accepts state).resolve_left refused).symm

variable [DecidableEq ι]

theorem fState_stepCaller {caller : ι} {succeeds : Bool} {after : ThreadObject ι}
    (steps : this.stepCaller caller succeeds = some after) :
    after.fState = (this.notifies (.caller caller succeeds)).getD this.fState := by
  unfold stepCaller at steps
  simp only [notifies]
  split at steps
  case h_1 => cases steps
  case h_2 | h_3 | h_5 | h_7 | h_13 =>
      rename_i place
      rw [place]
      split at steps <;> cases steps <;> rfl
  case h_8 =>
      rename_i place
      rw [place]
      cases steps
      rfl
  case h_4 | h_6 | h_9 | h_10 | h_11 | h_12 =>
      rename_i place
      rw [place]
      cases steps
      exact (getD_event _ _ _ _).symm

omit [DecidableEq ι] in
theorem fState_stepSystem {id : Nat} {after : ThreadObject ι}
    (steps : this.stepSystem id = some after) :
    after.fState = (this.notifies (.system id)).getD this.fState := by
  unfold stepSystem at steps
  simp only [notifies]
  split at steps
  case h_1 =>
      rename_i place
      rw [place]
      split at steps
      · cases steps
      · split at steps <;> cases steps <;> rfl
  case h_3 | h_5 =>
      rename_i place
      rw [place]
      cases steps
      rfl
  case h_2 | h_4 | h_6 =>
      rename_i place
      rw [place]
      cases steps
      exact (getD_event _ _ _ _).symm
  case h_7 => cases steps

theorem fState_step {move : ThreadMove ι} {after : ThreadObject ι}
    (steps : this.step move = some after) :
    after.fState = (this.notifies move).getD this.fState := by
  cases move with
  | start caller allocator | terminate caller | checkState caller state =>
    dsimp only [step] at steps
    split at steps <;> cases steps
    rfl
  | caller caller succeeds => exact fState_stepCaller steps
  | system id => exact fState_stepSystem steps

omit [DecidableEq ι] in
theorem Inv.notifies_next (inv : Inv this) {move : ThreadMove ι}
    {s : EThreadState} (late : Requests this move → Late this.fState)
    (told : this.notifies move = some s) : Next this.fState s := by
  cases move with
  | start caller allocator | terminate caller | checkState caller state =>
    cases told
  | caller caller succeeds =>
    simp only [notifies] at told
    cases place : this.callers caller with
    | idle | aliveCheck | terminatedCheck | createdCheck | startThread
      | storeId | check =>
        rw [place] at told
        cases told
    | recreate =>
      rw [place] at told
      exact event_next_created told
    | request =>
      rw [place] at told
      exact event_next_startRequested told
    | inProgress =>
      rw [place] at told
      exact event_next_startInProgress told
    | started =>
      rw [place] at told
      exact event_next_started told
    | withdraw =>
      rw [place] at told
      exact event_next_terminationRequested (late (.inl place)) told
    | terminate =>
      rw [place] at told
      exact event_next_terminationRequested (late (.inr place)) told
  | system id =>
    have ok := inv.states id
    simp only [notifies] at told
    cases place : this.system id with
    | checkStarted | runMethod | resetId | ended =>
      rw [place] at told
      cases told
    | setRunning =>
      rw [place] at told
      exact event_next_running told
    | leaveRun =>
      rw [place] at told ok
      rcases ok.1 with same | same <;> rw [same] at told ⊢ <;>
        rw [decide_eq_true ok.2] at told <;> cases told
      · exact .returned
      · exact .terminatedRunMethod
    | exit =>
      rw [place] at told ok
      rw [ok.1] at told ⊢
      cases told
      exact .terminated

omit [DecidableEq ι] in
theorem meets_of_late {move : ThreadMove ι}
    (late : Requests this move → Late this.fState) : Meets this move := by
  cases move with
  | caller caller succeeds =>
    intro requests requested
    rcases late requests with same | le
    · rw [requested] at same
      cases same
    · rw [requested] at le
      exact absurd le (by decide)
  | start caller allocator => trivial
  | terminate caller => trivial
  | checkState caller state => trivial
  | system id => trivial

end ThreadObject

/-! ## One thread of the pool -/

namespace PoolThread

open ThreadObject

variable {ι : Type}

/-- A pool thread whose record is what its states say. -/
structure Ok (this : PoolThread ι) : Prop where
  inv : ThreadObject.Inv this.thread
  reached_eq : this.reached = active this.thread.fState
  processing_eq : this.processing = decide (this.fRunningState = .eWorking)
  working : this.fRunningState = .eWorking → this.thread.fState = .eRunning

/-- A thread is terminated only while it runs and has no work, and its run
method returns without work. -/
structure Meets (this : PoolThread ι) (move : ThreadMove ι) : Prop where
  late : Requests this.thread move → Late this.thread.fState
  ready : Requests this.thread move ∨ Ends this.thread move →
    this.thread.fState = .eRunning → this.fRunningState = .eReady

theorem active_next {before after : EThreadState} (next : Next before after) :
    active after = reachedBy (active before) (some after) := by
  cases next <;> rfl

theorem setRunningState_eq (fState : EThreadState) (fRunningState state : ERunningState) :
    setRunningState fState fRunningState state =
      if fState = .eRunning ∧ fRunningState ≠ state then (state, true)
      else (fRunningState, false) := by
  cases fState <;> cases fRunningState <;> cases state <;> rfl

variable {this : PoolThread ι} {move : ThreadMove ι}

theorem Ok.leaves_running (ok : Ok this) {s : EThreadState}
    (told : this.thread.notifies move = some s) (running : this.thread.fState = .eRunning) :
    Requests this.thread move ∨ Ends this.thread move := by
  cases move with
  | start caller allocator | terminate caller | checkState caller state =>
    cases told
  | caller caller succeeds =>
    simp only [notifies, running] at told
    cases place : this.thread.callers caller with
    | idle | aliveCheck | terminatedCheck | createdCheck | startThread
      | storeId | check | recreate | inProgress | started =>
        rw [place] at told
        cases told
    | request =>
      rw [place] at told
      cases succeeds <;> cases told
    | withdraw => exact .inl (.inl place)
    | terminate => exact .inl (.inr place)
  | system id =>
    have states := ok.inv.states id
    simp only [notifies] at told
    cases place : this.thread.system id with
    | checkStarted | runMethod | resetId | ended =>
      rw [place] at told
      cases told
    | leaveRun => exact .inr (.inr place)
    | setRunning =>
      rw [place, running] at states
      rcases states.1 with other | other <;> cases other
    | exit =>
      rw [place, running] at states
      cases states.1

theorem Ok.processing_returns (ok : Ok this) (meets : Meets this move) :
    (this.processing && !this.returns move) = this.processing := by
  cases returned : this.returns move with
  | false => rw [Bool.not_false, Bool.and_true]
  | true =>
    have ends : Ends this.thread move := by
      cases move with
      | system id =>
        simp only [returns, decide_eq_true_eq] at returned
        exact .inl returned
      | start | terminate | checkState | caller => cases returned
    have idle : this.processing = false := by
      rw [ok.processing_eq, decide_eq_false_iff_not]
      intro works
      have ready := meets.ready (.inr ends) (ok.working works)
      rw [works] at ready
      cases ready
    rw [idle, Bool.false_and]

variable [DecidableEq ι]

theorem Ok.step {after : PoolThread ι}
    (ok : Ok this) (meets : Meets this move) (steps : this.step move = some after) : Ok after := by
  rcases bind_eq_some_iff.mp steps with ⟨thread, moves, same⟩
  cases same
  have states := fState_step moves
  have inv := (ok.inv.step (meets_of_late meets.late) moves).1
  have idle := ok.processing_returns meets
  cases told : this.thread.notifies move with
  | none =>
    rw [told, getD_none] at states
    refine ⟨inv, ?_, ?_, ?_⟩
    · rw [states]
      exact ok.reached_eq
    · exact idle.trans ok.processing_eq
    · intro works
      exact states.trans (ok.working works)
  | some s =>
    rw [told, getD_some] at states
    have next := ok.inv.notifies_next meets.late told
    refine ⟨inv, ?_, ?_, ?_⟩
    · rw [states, active_next next, ← ok.reached_eq]
    · exact idle.trans ok.processing_eq
    · intro works
      have running := ok.working works
      have ready := meets.ready (ok.leaves_running told running) running
      rw [works] at ready
      cases ready

omit [DecidableEq ι] in
theorem Ok.setWorking {this : PoolThread ι} (ok : Ok this) : Ok this.setWorking.1 := by
  have processingIs := ok.processing_eq
  simp only [PoolThread.setWorking, setRunningState_eq]
  split
  · rename_i accepted
    exact ⟨ok.inv, ok.reached_eq, Bool.or_true _, fun _ => accepted.1⟩
  · rw [Bool.or_false]
    exact ok

omit [DecidableEq ι] in
theorem Ok.setReady {this : PoolThread ι} (ok : Ok this) : Ok this.setReady.1 := by
  simp only [PoolThread.setReady, setRunningState_eq]
  split
  · exact ⟨ok.inv, ok.reached_eq, rfl, nofun⟩
  · rename_i refused
    have ready : this.fRunningState ≠ .eWorking := by
      intro works
      apply refused
      rw [works]
      exact ⟨ok.working works, nofun⟩
    exact ⟨ok.inv, ok.reached_eq, (decide_eq_false ready).symm, ok.working⟩

omit [DecidableEq ι] in
theorem Ok.told_cases {this : PoolThread ι} {move : ThreadMove ι} {told : Option EThreadState}
    (ok : Ok this) (meets : Meets this move) (tells : this.thread.notifies move = told) :
    told = some .eRunning ∧ this.reached = false ∨ told = some .eTerminated ∧ this.reached = true ∨
      told ≠ some .eRunning ∧ told ≠ some .eTerminated := by
  cases told with
  | none => exact .inr (.inr ⟨nofun, nofun⟩)
  | some s =>
    have next := ok.inv.notifies_next meets.late tells
    have reachedIs := ok.reached_eq
    generalize this.thread.fState = before at next reachedIs
    cases next with
    | running => exact .inl ⟨rfl, reachedIs⟩
    | terminated => exact .inr (.inl ⟨rfl, reachedIs⟩)
    | again | requested | inProgress | started | terminationRequested
      | returned | terminatedRunMethod => exact .inr (.inr ⟨nofun, nofun⟩)

omit [DecidableEq ι] in
theorem Ok.setWorking_processing {this : PoolThread ι} (ok : Ok this) :
    this.setWorking.1.processing.toNat = this.processing.toNat + this.setWorking.2.toNat := by
  have processingIs := ok.processing_eq
  simp only [PoolThread.setWorking, setRunningState_eq]
  split
  · rename_i accepted
    rw [processingIs, decide_eq_false accepted.2]
    rfl
  · rw [Bool.or_false]
    rfl

omit [DecidableEq ι] in
theorem Ok.setReady_processing {this : PoolThread ι} (ok : Ok this) :
    this.setReady.1.processing.toNat + this.setReady.2.toNat = this.processing.toNat := by
  have processingIs := ok.processing_eq
  simp only [PoolThread.setReady, setRunningState_eq]
  split
  · rename_i accepted
    have works : this.fRunningState = .eWorking := by
      cases state : this.fRunningState with
      | eReady => exact absurd state accepted.2
      | eWorking => rfl
    rw [processingIs, works]
    rfl
  · rename_i refused
    have ready : this.fRunningState ≠ .eWorking := by
      intro works
      apply refused
      rw [works]
      exact ⟨ok.working works, nofun⟩
    rw [processingIs, decide_eq_false ready]
    rfl

end PoolThread

namespace ThreadPoolManager

variable {κ ι : Type} [Fintype κ]

/-- The threads that have reached `eRunning` and not yet `eTerminated`. -/
def running (this : ThreadPoolManager κ ι) : Nat := ∑ k, (this.fThreadPool k).reached.toNat

def working (this : ThreadPoolManager κ ι) : Nat := ∑ k, (this.fThreadPool k).processing.toNat

/-- The counters of the pool are the numbers of its threads. -/
structure Counted (this : ThreadPoolManager κ ι) : Prop where
  ok : ∀ k, PoolThread.Ok (this.fThreadPool k)
  running : this.fRunningThreads = this.running
  parallel : this.fpStatEvtHandler.fCurrentParallelRequests = this.working

def Meets (this : ThreadPoolManager κ ι) : ThreadPoolMove κ ι → Prop
  | .thread k move => PoolThread.Meets (this.fThreadPool k) move
  | _ => True

variable {this : ThreadPoolManager κ ι}

theorem not_reached_of_none (none' : this.running = 0) (k : κ) :
    (this.fThreadPool k).reached = false := by
  have le := Counts.single_le_sum (fun t : PoolThread ι => t.reached.toNat) this.fThreadPool k
  rw [running] at none'
  cases reached : (this.fThreadPool k).reached with
  | false => rfl
  | true =>
    rw [none', reached] at le
    exact absurd le (by decide)

theorem not_processing_of_none (none' : this.working = 0) (k : κ) :
    (this.fThreadPool k).processing = false := by
  have le := Counts.single_le_sum (fun t : PoolThread ι => t.processing.toNat) this.fThreadPool k
  rw [working] at none'
  cases processing : (this.fThreadPool k).processing with
  | false => rfl
  | true =>
    rw [none', processing] at le
    exact absurd le (by decide)

variable [DecidableEq κ]

theorem running_setThread (this : ThreadPoolManager κ ι) (k : κ) (t : PoolThread ι) :
    (this.setThread k t).running + (this.fThreadPool k).reached.toNat =
      this.running + t.reached.toNat :=
  Counts.sum_update (fun t : PoolThread ι => t.reached.toNat) this.fThreadPool k t

theorem working_setThread (this : ThreadPoolManager κ ι) (k : κ) (t : PoolThread ι) :
    (this.setThread k t).working + (this.fThreadPool k).processing.toNat =
      this.working + t.processing.toNat :=
  Counts.sum_update (fun t : PoolThread ι => t.processing.toNat) this.fThreadPool k t

omit [Fintype κ] in
theorem ok_setThread {this : ThreadPoolManager κ ι} (ok : ∀ k, PoolThread.Ok (this.fThreadPool k))
    {k : κ} {t : PoolThread ι} (ok' : PoolThread.Ok t) (j : κ) :
    PoolThread.Ok ((this.setThread k t).fThreadPool j) := by
  dsimp only [setThread]
  rw [Function.update_apply]
  split
  · exact ok'
  · exact ok j

variable [DecidableEq ι]

omit [Fintype κ] [DecidableEq κ] [DecidableEq ι] in
theorem update_other (this : ThreadPoolManager κ ι) {told : Option EThreadState}
    (notRunning : told ≠ some .eRunning) (notTerminated : told ≠ some .eTerminated) :
    (∃ started, this.update told = { this with fStartedThreads := started }) ∧
      ∀ reached, PoolThread.reachedBy reached told = reached := by
  cases told with
  | none => exact ⟨⟨_, rfl⟩, fun _ => rfl⟩
  | some s =>
    cases s with
    | eRunning => exact absurd rfl notRunning
    | eTerminated => exact absurd rfl notTerminated
    | eStarted | eCreated | eStartRequested | eStartInProgress
      | eTerminationRequested | eTerminatedRunMethod =>
        exact ⟨⟨_, rfl⟩, fun _ => rfl⟩

theorem Counted.thread (counted : Counted this) {k : κ} {move : ThreadMove ι} {t : PoolThread ι}
    (meets : PoolThread.Meets (this.fThreadPool k) move)
    (steps : (this.fThreadPool k).step move = some t) :
    Counted ((this.setThread k t).update ((this.fThreadPool k).thread.notifies move)) := by
  have ok := counted.ok k
  have running := running_setThread this k t
  have working := working_setThread this k t
  have isRunning := counted.running
  have okNow := ok_setThread counted.ok (k := k) (ok.step meets steps)
  rcases bind_eq_some_iff.mp steps with ⟨thread, moves, same⟩
  have reachedIs : t.reached = PoolThread.reachedBy (this.fThreadPool k).reached
      ((this.fThreadPool k).thread.notifies move) := by
    cases same
    rfl
  have processingIs : t.processing = (this.fThreadPool k).processing := by
    cases same
    exact ok.processing_returns meets
  have parallel : this.fpStatEvtHandler.fCurrentParallelRequests =
      ((this.setThread k t).working : Int) := by
    rw [processingIs] at working
    rw [counted.parallel]
    omega
  obtain ⟨told, tells⟩ : ∃ told, (this.fThreadPool k).thread.notifies move = told := ⟨_, rfl⟩
  have which := ok.told_cases meets tells
  rw [tells] at reachedIs ⊢
  rcases which with ⟨rfl, before⟩ | ⟨rfl, before⟩ | ⟨notRunning, notEnd⟩
  · rw [before, reachedIs] at running
    have more : (this.setThread k t).running = this.running + 1 := running
    refine ⟨okNow, ?_, parallel⟩
    show this.fRunningThreads + 1 = ((this.setThread k t).running : Int)
    omega
  · rw [before, reachedIs] at running
    have less : (this.setThread k t).running + 1 = this.running := running
    refine ⟨okNow, ?_, parallel⟩
    show this.fRunningThreads - 1 = ((this.setThread k t).running : Int)
    omega
  · rcases update_other (this.setThread k t) notRunning notEnd with ⟨⟨started, updates⟩, keeps⟩
    rw [keeps] at reachedIs
    rw [reachedIs] at running
    rw [updates]
    refine ⟨okNow, ?_, parallel⟩
    show this.fRunningThreads = ((this.setThread k t).running : Int)
    omega

omit [Fintype κ] [DecidableEq κ] [DecidableEq ι] in
theorem updateRunning_working (this : ThreadPoolManager κ ι) (done : Bool) :
    (this.updateRunning .eWorking done
      ).fpStatEvtHandler.fCurrentParallelRequests =
        this.fpStatEvtHandler.fCurrentParallelRequests + done.toNat := by
  cases done with
  | true => rfl
  | false => exact (Int.add_zero _).symm

omit [Fintype κ] [DecidableEq κ] [DecidableEq ι] in
theorem updateRunning_ready (this : ThreadPoolManager κ ι) (done : Bool) :
    (this.updateRunning .eReady done
      ).fpStatEvtHandler.fCurrentParallelRequests =
        this.fpStatEvtHandler.fCurrentParallelRequests - done.toNat := by
  cases done with
  | true => rfl
  | false => exact (Int.sub_zero _).symm

omit [DecidableEq ι] in
theorem Counted.updateRunning (counted : Counted this) {k : κ} {t : PoolThread ι}
    {state : ERunningState} {done : Bool} (ok : PoolThread.Ok t)
    (reachedIs : t.reached = (this.fThreadPool k).reached)
    (counts : ((this.setThread k t).updateRunning state done
        ).fpStatEvtHandler.fCurrentParallelRequests +
        (this.fThreadPool k).processing.toNat =
      this.fpStatEvtHandler.fCurrentParallelRequests + t.processing.toNat) :
    Counted ((this.setThread k t).updateRunning state done) := by
  have running := running_setThread this k t
  have working := working_setThread this k t
  have isWorking := counted.parallel
  rw [reachedIs] at running
  have frame : ((this.setThread k t).updateRunning state done).fThreadPool =
      (this.setThread k t).fThreadPool ∧
      ((this.setThread k t).updateRunning state done).fRunningThreads = this.fRunningThreads := by
    cases done <;> exact ⟨rfl, rfl⟩
  constructor
  · rw [frame.1]
    exact ok_setThread counted.ok ok
  · rw [frame.2, counted.running]
    unfold ThreadPoolManager.running at running ⊢
    rw [frame.1]
    omega
  · unfold ThreadPoolManager.working at working isWorking ⊢
    rw [frame.1]
    omega

theorem Counted.step {after : ThreadPoolManager κ ι} {move : ThreadPoolMove κ ι}
    (counted : Counted this) (meets : Meets this move) (steps : this.step move = some after) :
    Counted after := by
  cases move with
  | thread k move =>
    rcases bind_eq_some_iff.mp steps with ⟨t, moves, same⟩
    cases same
    exact counted.thread meets moves
  | setWorking k =>
    cases steps
    have ok := counted.ok k
    have more := ok.setWorking_processing
    show Counted ((this.setThread k (this.fThreadPool k).setWorking.1
      ).updateRunning .eWorking (this.fThreadPool k).setWorking.2)
    apply counted.updateRunning ok.setWorking rfl
    rw [updateRunning_working, more]
    dsimp only [setThread]
    omega
  | setReady k =>
    cases steps
    have ok := counted.ok k
    have less := ok.setReady_processing
    show Counted ((this.setThread k (this.fThreadPool k).setReady.1
      ).updateRunning .eReady (this.fThreadPool k).setReady.2)
    apply counted.updateRunning ok.setReady rfl
    rw [updateRunning_ready, ← less]
    dsimp only [setThread]
    omega

/-- The counters are right, and `Join` and `AwaitReady` say that nothing runs
only when nothing does. -/
structure Accounts (this : ThreadPoolManager κ ι) : Prop where
  running : this.fRunningThreads = this.running
  parallel : this.fpStatEvtHandler.fCurrentParallelRequests = this.working
  join : ∀ lWaited lMaxSecsToWait,
    this.join lWaited lMaxSecsToWait = some 0 → ∀ k, (this.fThreadPool k).reached = false
  awaitReady : this.awaitReady = true → ∀ k, (this.fThreadPool k).processing = false

omit [DecidableEq κ] [DecidableEq ι] in
theorem Counted.accounts {this : ThreadPoolManager κ ι}
    (counted : Counted this) : Accounts this where
  running := counted.running
  parallel := counted.parallel
  join := by
    intro lWaited lMaxSecsToWait returned
    have isRunning := counted.running
    unfold ThreadPoolManager.join at returned
    split at returned
    · cases returned
    · have zero := Option.some.inj returned
      exact not_reached_of_none (by omega)
  awaitReady := by
    intro ready
    have isWorking := counted.parallel
    have none' := of_decide_eq_true ready
    exact not_processing_of_none (by omega)

omit [DecidableEq κ] [DecidableEq ι] in
theorem new_counted : Counted (new : ThreadPoolManager κ ι) where
  ok := fun _ => ⟨ThreadObject.new_inv, rfl, rfl, nofun⟩
  running := by
    simp only [ThreadPoolManager.running, new, PoolThread.new,
      Bool.toNat_false, Finset.sum_const_zero]
    rfl
  parallel := by
    simp only [ThreadPoolManager.working, new, PoolThread.new,
      WPMStatHandler.new, Bool.toNat_false, Finset.sum_const_zero]
    rfl

/-- In every run in which threads are terminated only while they run and have
no work, and return from their run methods without work. -/
theorem new_run_accounts {this : ThreadPoolManager κ ι} {moves : List (ThreadPoolMove κ ι)}
    (along : Along step Meets new moves)
    (runs : run step new moves = some this) : Accounts this := by
  have keeps : ∀ (before : ThreadPoolManager κ ι) move after,
      Counted before → Meets before move → before.step move = some after → Counted after :=
    fun _ _ _ counted meets steps => counted.step meets steps
  exact (run_invariant keeps new_counted along runs).accounts

private def begun : List (ThreadPoolMove Unit Bool) :=
  [ThreadPoolMove.thread () (.start false true)] ++
    List.replicate 8 (ThreadPoolMove.thread () (.caller false true)) ++
    List.replicate 2 (ThreadPoolMove.thread () (.system 0))

private def ended : List (ThreadPoolMove Unit Bool) :=
  [ThreadPoolMove.thread () (.terminate true), .thread () (.caller true true)] ++
    List.replicate 4 (ThreadPoolMove.thread () (.system 0))

private theorem meets_ready {this : ThreadPoolManager Unit Bool} {move : ThreadMove Bool}
    (ready : (this.fThreadPool ()).fRunningState = .eReady)
    (late : ¬ ThreadObject.Requests (this.fThreadPool ()).thread move ∨
      (this.fThreadPool ()).thread.fState = .eRunning) :
    Meets this (.thread () move) := by
  refine ⟨fun requests => ?_, fun _ _ => ready⟩
  rcases late with none' | running
  · exact absurd requests none'
  · exact .inl running

private theorem meets_calm {this : ThreadPoolManager Unit Bool}
    {caller succeeds : Bool} {pc : CallerPc} (ready : (this.fThreadPool ()).fRunningState = .eReady)
    (place : (this.fThreadPool ()).thread.callers caller = pc)
    (calm : pc ≠ .withdraw ∧ pc ≠ .terminate) :
    Meets this (.thread () (.caller caller succeeds)) := by
  apply meets_ready ready
  refine .inl ?_
  rintro (same | same)
  · exact calm.1 (place.symm.trans same)
  · exact calm.2 (place.symm.trans same)

/-- A thread is started, works, becomes ready and is terminated. -/
theorem new_run_accounts_ready :
    ∃ this : ThreadPoolManager Unit Bool,
      run step new (begun ++ [ThreadPoolMove.setWorking (), .setReady ()] ++ ended) =
        some this ∧ this.fTerminatedThreads = 1 ∧ Accounts this := by
  have along : Along step Meets (new : ThreadPoolManager Unit Bool)
      (begun ++ [ThreadPoolMove.setWorking (), .setReady ()] ++ ended) := by
    refine .cons (meets_ready rfl (.inl id)) rfl ?_
    refine .cons (meets_calm rfl rfl ⟨nofun, nofun⟩) rfl ?_
    refine .cons (meets_calm rfl rfl ⟨nofun, nofun⟩) rfl ?_
    refine .cons (meets_calm rfl rfl ⟨nofun, nofun⟩) rfl ?_
    refine .cons (meets_calm rfl rfl ⟨nofun, nofun⟩) rfl ?_
    refine .cons (meets_calm rfl rfl ⟨nofun, nofun⟩) rfl ?_
    refine .cons (meets_calm rfl rfl ⟨nofun, nofun⟩) rfl ?_
    refine .cons (meets_calm rfl rfl ⟨nofun, nofun⟩) rfl ?_
    refine .cons (meets_calm rfl rfl ⟨nofun, nofun⟩) rfl ?_
    refine .cons (meets_ready rfl (.inl id)) rfl ?_
    refine .cons (meets_ready rfl (.inl id)) rfl ?_
    refine .cons trivial rfl (.cons trivial rfl ?_)
    refine .cons (meets_ready rfl (.inl id)) rfl ?_
    refine .cons (meets_ready rfl (.inr rfl)) rfl ?_
    refine .cons (meets_ready rfl (.inl id)) rfl ?_
    refine .cons (meets_ready rfl (.inl id)) rfl ?_
    refine .cons (meets_ready rfl (.inl id)) rfl ?_
    exact .cons (meets_ready rfl (.inl id)) rfl trivial
  exact ⟨_, rfl, rfl, new_run_accounts along rfl⟩

/-- A thread that was never started is terminated: the count of running
threads is below zero.  A thread is terminated while it works: it stays
counted when it is done. -/
theorem not_new_run_accounts :
    (¬ ∀ (moves : List (ThreadPoolMove Unit Bool))
      (this : ThreadPoolManager Unit Bool),
      run step new moves = some this → 0 ≤ this.fRunningThreads) ∧
    ¬ ∀ (moves : List (ThreadPoolMove Unit Bool))
      (this : ThreadPoolManager Unit Bool),
      run step new moves = some this →
        this.fpStatEvtHandler.fCurrentParallelRequests = this.working := by
  constructor
  · intro always
    have nonneg := always [.thread () (.terminate true), .thread () (.caller true true)] _ rfl
    exact absurd nonneg (by decide)
  · intro always
    have counted := always (begun ++ [.setWorking (),
      .thread () (.terminate true), .thread () (.caller true true),
      .setReady ()]) _ rfl
    exact absurd counted (by decide)

end ThreadPoolManager

end Coast
