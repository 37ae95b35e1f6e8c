import Coast.Mtfoundation.ThreadPoolAccounts

/-!
# What workers are given is processed

As long as a request for termination finds a worker without work, every
workload that was accepted is processed once, by the worker that has it, and
the pool counts the workers at work.
-/

namespace Coast

open Runs List Option Function

namespace Worker

open ThreadObject

variable {ω : Type}

def Done (this : Worker ω) : Prop := this.accepted = this.processed

/-- The stored workload is the only one that is not processed. -/
def Given (this : Worker ω) : Prop :=
  ∃ workload, this.workload = some workload ∧ this.accepted = this.processed ++ [workload]

def Cycle (this : Worker ω) : WorkerPc → Prop
  | .checkRunningState =>
    this.fRunningState = .eReady ∧ this.Done ∨ this.fRunningState = .eWorking ∧ this.Given
  | .processWorkload => this.fRunningState = .eWorking ∧ this.Given
  | .setReady => this.fRunningState = .eWorking ∧ this.Done
  | .leaveRun | .exit | .ended =>
    this.fState ≠ .eRunning ∧ this.fRunningState = .eReady ∧ this.Done

structure Ok (this : Worker ω) : Prop where
  cycle : this.Cycle this.pc
  working : this.fRunningState = .eWorking → this.fState = .eRunning

def works (this : Worker ω) : Nat := if this.fRunningState = .eWorking then 1 else 0

variable {this : Worker ω}

variable (ok : Ok this)
include ok

theorem Ok.ready
    (stopped : this.fState ≠ .eRunning) : this.fRunningState = .eReady := by
  cases state : this.fRunningState with
  | eReady => rfl
  | eWorking => exact absurd (ok.working state) stopped

theorem Ok.setWorking (workload : Workload ω) :
    Ok (this.setWorking workload).1 ∧
      (this.setWorking workload).1.works = this.works + (this.setWorking workload).2.toNat ∧
      (this.setWorking workload).1.accepted = this.accepted ++
        (if (this.setWorking workload).2 then [workload] else []) := by
  simp only [Worker.setWorking, PoolThread.setRunningState_eq]
  by_cases accepts : this.fState = .eRunning ∧ this.fRunningState ≠ .eWorking
  · have ready : this.fRunningState = .eReady := by
      cases state : this.fRunningState with
      | eReady => rfl
      | eWorking => exact absurd state accepts.2
    have cycle := ok.cycle
    simp only [if_pos accepts, if_true]
    refine ⟨⟨?_, fun _ => accepts.1⟩, ?_, trivial⟩
    · cases place : this.pc with
      | checkRunningState =>
        rw [place] at cycle
        rcases cycle with ⟨_, done⟩ | ⟨works, _⟩
        · refine .inr ⟨rfl, workload, rfl, ?_⟩
          exact congrArg (· ++ [workload]) done
        · exact absurd works accepts.2
      | processWorkload | setReady =>
        rw [place] at cycle
        exact absurd cycle.1 accepts.2
      | leaveRun | exit | ended =>
        rw [place] at cycle
        exact absurd accepts.1 cycle.1
    · simp only [works, ready, if_true]
      rfl
  · simp only [if_neg accepts, Bool.false_eq_true, if_false, append_nil]
    exact ⟨ok, rfl, trivial⟩

theorem Ok.terminate
    (ready : this.fState = .eRunning → this.fRunningState = .eReady) :
    Ok this.terminate := by
  have idle : this.fRunningState = .eReady := by
    by_cases running : this.fState = .eRunning
    · exact ready running
    · exact ok.ready running
  have stopped : this.terminate.fState ≠ .eRunning := by
    simp only [Worker.terminate, setState_terminationRequested]
    cases this.fState <;> nofun
  have cycle := ok.cycle
  refine ⟨?_, fun works => nomatch works.symm.trans idle⟩
  show this.terminate.Cycle this.pc
  cases place : this.pc with
  | checkRunningState =>
    rw [place] at cycle
    exact cycle
  | processWorkload | setReady =>
    rw [place] at cycle
    exact nomatch cycle.1.symm.trans idle
  | leaveRun | exit | ended =>
    rw [place] at cycle
    exact ⟨stopped, cycle.2⟩

theorem Ok.step {after : Worker ω} {told : Option ERunningState}
 (steps : this.step = some (after, told)) :
    Ok after ∧ after.accepted = this.accepted ∧ (told = none ∧ after.works = this.works ∨
        told = some .eReady ∧ after.works + 1 = this.works) := by
  have cycle := ok.cycle
  unfold Worker.step at steps
  cases place : this.pc with
  | checkRunningState =>
    rw [place] at steps cycle
    dsimp only at steps
    split at steps
    · rename_i stopped
      cases steps
      have ready := ok.ready stopped
      rcases cycle with ⟨_, done⟩ | ⟨works, _⟩
      · exact ⟨⟨⟨stopped, ready, done⟩, ok.working⟩, rfl, .inl ⟨rfl, rfl⟩⟩
      · exact absurd (ok.working works) stopped
    · split at steps
      · rename_i works
        cases steps
        rcases cycle with ⟨ready, _⟩ | given
        · exact nomatch ready.symm.trans works
        · exact ⟨⟨given, ok.working⟩, rfl, .inl ⟨rfl, rfl⟩⟩
      · cases steps
  | processWorkload =>
    rw [place] at steps cycle
    cases steps
    rcases cycle with ⟨works, workload, stored, accepted⟩
    refine ⟨⟨⟨works, ?_⟩, ok.working⟩, rfl, .inl ⟨rfl, rfl⟩⟩
    show this.accepted = this.processed ++ this.workload.toList
    rw [stored]
    exact accepted
  | setReady =>
    rw [place] at steps cycle
    rcases cycle with ⟨works, done⟩
    have running := ok.working works
    have sets : setRunningState this.fState this.fRunningState .eReady = (.eReady, true) := by
      rw [running, works]
      rfl
    simp only [sets, if_true] at steps
    cases steps
    refine ⟨⟨.inl ⟨rfl, done⟩, nofun⟩, rfl, .inr ⟨rfl, ?_⟩⟩
    simp only [Worker.works, works, if_true]
    rfl
  | leaveRun =>
    rw [place] at steps cycle
    cases steps
    refine ⟨⟨⟨?_, cycle.2⟩, ?_⟩, rfl, .inl ⟨rfl, rfl⟩⟩
    · simp only [setState_terminatedRunMethod]
      nofun
    · exact fun works => nomatch works.symm.trans cycle.2.1
  | exit =>
    rw [place] at steps cycle
    cases steps
    refine ⟨⟨⟨?_, cycle.2⟩, ?_⟩, rfl, .inl ⟨rfl, rfl⟩⟩
    · simp only [setState_terminated]
      split
      · nofun
      · exact cycle.1
    · exact fun works => nomatch works.symm.trans cycle.2.1
  | ended =>
    rw [place] at steps
    cases steps

end Worker

namespace EnterPc

variable {n : Nat} {ω : Type}

def workload : EnterPc n ω → Option (Workload ω)
  | .idle => none
  | .lock w _ | .find w _ | .wait w _ | .scan w _ | .setWorking w _ => some w

end EnterPc

/-- How often each call was accepted or refused, for calls below `entered`;
the calls that have not returned are none of them. -/
structure Ledger {ι : Type} {n : Nat} {ω : Type} (logged : Nat → Nat)
    (entered : Nat) (clients : ι → EnterPc n ω) : Prop where
  once : ∀ number, logged number ≤ 1
  fresh : ∀ number, entered ≤ number → logged number = 0
  held : ∀ c w, (clients c).workload = some w → w.number < entered ∧ logged w.number = 0
  apart : ∀ c c' w w', (clients c).workload = some w →
    (clients c').workload = some w' → w.number = w'.number → c = c'

namespace Ledger

variable {ι : Type} [DecidableEq ι] {n : Nat} {ω : Type}
  {logged : Nat → Nat} {entered : Nat} {clients : ι → EnterPc n ω}
  {client : ι}

variable (ledger : Ledger logged entered clients)
include ledger

theorem moveTo {pc : EnterPc n ω} (same : pc.workload = (clients client).workload) :
    Ledger logged entered (Function.update clients client pc) := by
  have workloads : ∀ c, (Function.update clients client pc c).workload = (clients c).workload := by
    intro c
    rw [update_apply]
    split
    · rename_i here
      rw [here]
      exact same
    · rfl
  refine ⟨ledger.once, ledger.fresh, ?_, ?_⟩
  · intro c w holds
    rw [workloads] at holds
    exact ledger.held c w holds
  · intro c c' w w' holds holds'
    rw [workloads] at holds holds'
    exact ledger.apart c c' w w' holds holds'

theorem enter {args : ω} {hint : Int} :
    Ledger logged (entered + 1) (Function.update clients client (.lock ⟨entered, args⟩ hint)) := by
  have either : ∀ c w, (Function.update clients client
      (.lock ⟨entered, args⟩ hint) c).workload = some w →
      c = client ∧ w.number = entered ∨ (clients c).workload = some w ∧ w.number < entered := by
    intro c w holds
    rw [update_apply] at holds
    split at holds
    · rename_i here
      cases holds
      exact .inl ⟨here, rfl⟩
    · exact .inr ⟨holds, (ledger.held c w holds).1⟩
  refine ⟨ledger.once, ?_, ?_, ?_⟩
  · intro number le
    exact ledger.fresh number (by omega)
  · intro c w holds
    rcases either c w holds with ⟨_, same⟩ | ⟨held, less⟩
    · rw [same]
      exact ⟨Nat.lt_succ_self _, ledger.fresh _ (Nat.le_refl _)⟩
    · exact ⟨by omega, (ledger.held c w held).2⟩
  · intro c c' w w' holds holds' same
    rcases either c w holds with ⟨here, number⟩ | ⟨held, less⟩ <;>
      rcases either c' w' holds' with ⟨here', number'⟩ | ⟨held', less'⟩
    · rw [here, here']
    · omega
    · omega
    · exact ledger.apart c c' w w' held held' same

theorem log {w : Workload ω}
    (holds : (clients client).workload = some w) {logged' : Nat → Nat}
    (logs : ∀ number, logged' number = logged number + if w.number = number then 1 else 0) :
    Ledger logged' entered (Function.update clients client .idle) := by
  have others : ∀ c w', (Function.update clients client .idle c).workload =
      some w' → (clients c).workload = some w' ∧ w.number ≠ w'.number := by
    intro c w' holds'
    rw [update_apply] at holds'
    split at holds'
    · cases holds'
    · rename_i elsewhere
      refine ⟨holds', ?_⟩
      intro same
      exact elsewhere (ledger.apart client c w w' holds holds' same).symm
  have here := ledger.held client w holds
  refine ⟨?_, ?_, ?_, ?_⟩
  · intro number
    have once := ledger.once number
    rw [logs]
    split
    · rename_i same
      rw [← same, here.2]
    · exact once
  · intro number le
    have different : ¬ w.number = number := by omega
    rw [logs, if_neg different]
    exact ledger.fresh number le
  · intro c w' holds'
    rcases others c w' holds' with ⟨held, different⟩
    have before := ledger.held c w' held
    rw [logs, if_neg different]
    exact before
  · intro c c' w₁ w₂ first second
    exact ledger.apart c c' w₁ w₂ (others c w₁ first).1 (others c' w₂ second).1

end Ledger

namespace WorkerPool

variable {n : Nat} {ι ω : Type}

def logged (this : WorkerPool n ι ω) (number : Nat) : Nat :=
  (∑ k, (this.workers k).accepted.countP (·.number = number)) +
    this.refused.countP (·.number = number)

def working (this : WorkerPool n ι ω) : Nat := ∑ k, (this.workers k).works

structure Consistent (this : WorkerPool n ι ω) : Prop where
  ok : ∀ k, Worker.Ok (this.workers k)
  count : this.fpStatEvtHandler.fCurrentParallelRequests = this.working
  ledger : Ledger this.logged this.entered this.clients

def Meets (this : WorkerPool n ι ω) : WorkerPoolMove n ι ω → Prop
  | .terminate k => (this.workers k).fState = .eRunning → (this.workers k).fRunningState = .eReady
  | _ => True

variable {this : WorkerPool n ι ω} {k : Fin n}

theorem ok_setWorker (ok : ∀ k, Worker.Ok (this.workers k)) {worker : Worker ω}
    (ok' : Worker.Ok worker) (j : Fin n) :
    Worker.Ok ((this.setWorker k worker).workers j) := by
  dsimp only [setWorker]
  rw [update_apply]
  split
  · exact ok'
  · exact ok j

theorem working_setWorker (this : WorkerPool n ι ω) (k : Fin n) (worker : Worker ω) :
    (this.setWorker k worker).working + (this.workers k).works = this.working + worker.works :=
  Counts.sum_update Worker.works this.workers k worker

theorem logged_setWorker (this : WorkerPool n ι ω) (k : Fin n) (worker : Worker ω) (number : Nat) :
    (this.setWorker k worker).logged number + (this.workers k).accepted.countP (·.number = number) =
      this.logged number + worker.accepted.countP (·.number = number) := by
  have sums := Counts.sum_update (fun w : Worker ω => w.accepted.countP (·.number = number))
    this.workers k worker
  unfold logged
  dsimp only [setWorker]
  omega

theorem Consistent.worker (consistent : Consistent this) {worker : Worker ω}
    {told : Option ERunningState} (ok : Worker.Ok worker)
    (same : worker.accepted = (this.workers k).accepted)
    (counts : told = none ∧ worker.works = (this.workers k).works ∨
      told = some .eReady ∧ worker.works + 1 = (this.workers k).works) :
    Consistent ((this.setWorker k worker).update told) := by
  have working := working_setWorker this k worker
  have count := consistent.count
  have sameLog : (this.setWorker k worker).logged = this.logged := by
    funext number
    have logged := logged_setWorker this k worker number
    rw [same] at logged
    omega
  have okNow := ok_setWorker consistent.ok (k := k) ok
  have ledger := consistent.ledger
  rw [← sameLog] at ledger
  rcases counts with ⟨rfl, equal⟩ | ⟨rfl, less⟩
  · refine ⟨okNow, ?_, ledger⟩
    show this.fpStatEvtHandler.fCurrentParallelRequests = ((this.setWorker k worker).working : Int)
    omega
  · refine ⟨okNow, ?_, ledger⟩
    show this.fpStatEvtHandler.fCurrentParallelRequests - 1 =
      ((this.setWorker k worker).working : Int)
    omega

variable [DecidableEq ι]

theorem Consistent.moveTo (consistent : Consistent this) {client : ι} {pc : EnterPc n ω}
    (same : pc.workload = (this.clients client).workload) (fMutex : Option ι) :
    Consistent ({ this with fMutex := fMutex }.moveTo client pc) :=
  ⟨consistent.ok, consistent.count, consistent.ledger.moveTo same⟩

theorem Consistent.setWorking (consistent : Consistent this) {client : ι} {w : Workload ω}
    (place : this.clients client = .setWorking w k) :
    Consistent ({ (this.setWorker k ((this.workers k).setWorking w).1).update
        (if ((this.workers k).setWorking w).2 then some .eWorking
          else none) with
      fMutex := none
      refused := if ((this.workers k).setWorking w).2 then this.refused
        else this.refused ++ [w] }.moveTo client .idle) := by
  rcases (consistent.ok k).setWorking w with ⟨ok, works, accepts⟩
  have holds : (this.clients client).workload = some w := by
    rw [place]
    rfl
  have working := working_setWorker this k ((this.workers k).setWorking w).1
  have logged := logged_setWorker this k ((this.workers k).setWorking w).1
  have okNow := ok_setWorker consistent.ok (k := k) ok
  have count := consistent.count
  generalize ((this.workers k).setWorking w).1 = worker at *
  cases accepted : ((this.workers k).setWorking w).2 with
  | true =>
    simp only [accepted, if_true, Bool.toNat_true] at works accepts ⊢
    refine ⟨okNow, ?_, consistent.ledger.log holds ?_⟩
    · show this.fpStatEvtHandler.fCurrentParallelRequests + 1 =
        ((this.setWorker k worker).working : Int)
      omega
    · intro number
      have log := logged number
      rw [accepts, countP_append, countP_singleton] at log
      show (this.setWorker k worker).logged number = _
      simp only [decide_eq_true_eq] at log
      omega
  | false =>
    simp only [accepted, Bool.false_eq_true, if_false, Bool.toNat_false,
      append_nil] at works accepts ⊢
    refine ⟨okNow, ?_, consistent.ledger.log holds ?_⟩
    · show this.fpStatEvtHandler.fCurrentParallelRequests =
        ((this.setWorker k worker).working : Int)
      omega
    · intro number
      have log := logged number
      rw [accepts] at log
      have more : (this.refused ++ [w]).countP (·.number = number) =
          this.refused.countP (·.number = number) + if w.number = number then 1 else 0 := by
        rw [countP_append, countP_singleton]
        simp only [decide_eq_true_eq]
      have same : (this.setWorker k worker).logged number = this.logged number := by omega
      show (∑ j, ((this.setWorker k worker).workers j).accepted.countP
        (·.number = number)) + (this.refused ++ [w]).countP (·.number = number) = _
      rw [more, ← Nat.add_assoc, ← same]
      rfl

variable [NeZero n]

theorem Consistent.stepClient {after : WorkerPool n ι ω} {client : ι} {couldLock : Bool}
    (consistent : Consistent this) (steps : this.stepClient client couldLock = some after) :
    Consistent after := by
  unfold WorkerPool.stepClient at steps
  cases place : this.clients client with
  | idle =>
    rw [place] at steps
    cases steps
  | lock w hint | wait w hint =>
    rw [place] at steps
    dsimp only at steps
    split at steps <;> cases steps
    exact consistent.moveTo (by rw [place]; rfl) (some client)
  | find w hint =>
    rw [place] at steps
    dsimp only at steps
    split at steps <;> cases steps
    · exact consistent.moveTo (by rw [place]; rfl) none
    · exact consistent.moveTo (by rw [place]; rfl) this.fMutex
  | scan w k =>
    rw [place] at steps
    dsimp only at steps
    split at steps <;> cases steps
    · exact consistent.moveTo (by rw [place]; rfl) this.fMutex
    · exact consistent.moveTo (by rw [place]; rfl) this.fMutex
  | setWorking w k =>
    rw [place] at steps
    cases steps
    exact consistent.setWorking place

theorem Consistent.step {after : WorkerPool n ι ω} {move : WorkerPoolMove n ι ω}
    (consistent : Consistent this) (meets : Meets this move) (steps : this.step move = some after) :
    Consistent after := by
  cases move with
  | enter client args hint =>
    dsimp only [WorkerPool.step] at steps
    split at steps <;> cases steps
    exact ⟨consistent.ok, consistent.count, consistent.ledger.enter⟩
  | client client couldLock => exact consistent.stepClient steps
  | worker k =>
    rcases bind_eq_some_iff.mp steps with ⟨⟨worker, told⟩, moves, same⟩
    cases same
    rcases (consistent.ok k).step moves with ⟨ok, accepted, counts⟩
    exact consistent.worker ok accepted counts
  | blockRequests | unblockRequests =>
    dsimp only [WorkerPool.step] at steps
    split at steps <;> cases steps
    exact ⟨consistent.ok, consistent.count, consistent.ledger⟩
  | terminate k =>
    cases steps
    have ok := (consistent.ok k).terminate meets
    have untold : (none : Option ERunningState) = none := rfl
    exact consistent.worker ok rfl (.inl ⟨untold, rfl⟩)

omit [DecidableEq ι] [NeZero n] in
theorem new_consistent : Consistent (new : WorkerPool n ι ω) where
  ok := fun _ => ⟨.inl ⟨rfl, rfl⟩, nofun⟩
  count := by
    simp only [working, new, Worker.new, Worker.works, reduceCtorEq,
      if_false, Finset.sum_const_zero]
    rfl
  ledger := by
    have empty : (new : WorkerPool n ι ω).logged = fun _ => 0 := by
      funext number
      simp only [logged, new, Worker.new, countP_nil, Finset.sum_const_zero]
    rw [empty]
    exact ⟨fun _ => Nat.zero_le _, fun _ _ => rfl, nofun, nofun⟩

/-- Each accepted workload is processed before the next one is accepted, the
one that is not yet processed is processed by the next steps of its worker,
each call is accepted or refused at most once, and the count says how many
workers are in their cycle. -/
structure HandsOver (this : WorkerPool n ι ω) : Prop where
  inOrder : ∀ k, (this.workers k).accepted = (this.workers k).processed ∨
    ∃ w, (this.workers k).accepted = (this.workers k).processed ++ [w]
  processes : ∀ k, ∃ steps after, steps ≤ 2 ∧
    run step this (List.replicate steps (.worker k)) = some after ∧
    (after.workers k).processed = (this.workers k).accepted
  once : ∀ number, this.logged number ≤ 1
  nonneg : 0 ≤ this.fpStatEvtHandler.fCurrentParallelRequests
  le : this.fpStatEvtHandler.fCurrentParallelRequests ≤ n
  zero : (∀ k, (this.workers k).accepted = (this.workers k).processed ∧
      (this.workers k).pc ≠ .processWorkload ∧
      (this.workers k).pc ≠ .setReady) →
    this.fpStatEvtHandler.fCurrentParallelRequests = 0

omit [DecidableEq ι] [NeZero n] in
theorem working_le (this : WorkerPool n ι ω) : this.working ≤ n := by
  have each : ∀ k ∈ Finset.univ, (this.workers k).works ≤ 1 := by
    intro k _
    unfold Worker.works
    split <;> omega
  calc this.working ≤ ∑ _k : Fin n, 1 := Finset.sum_le_sum each
    _ = n := by
      rw [Finset.sum_const, Finset.card_univ, Fintype.card_fin]
      exact Nat.mul_one n

omit [DecidableEq ι] [NeZero n] in
theorem Consistent.works_eq_zero (consistent : Consistent this)
    (done : (this.workers k).accepted = (this.workers k).processed)
    (notProcess : (this.workers k).pc ≠ .processWorkload)
    (notReady : (this.workers k).pc ≠ .setReady) :
    (this.workers k).works = 0 := by
  have cycle := (consistent.ok k).cycle
  apply if_neg
  intro works
  cases place : (this.workers k).pc with
  | checkRunningState =>
    rw [place] at cycle
    rcases cycle with ⟨ready, _⟩ | ⟨_, w, _, accepted⟩
    · exact nomatch ready.symm.trans works
    · rw [done] at accepted
      exact cons_ne_nil w [] (self_eq_append_right.mp accepted)
  | processWorkload => exact notProcess place
  | setReady => exact notReady place
  | leaveRun | exit | ended =>
    rw [place] at cycle
    exact nomatch cycle.2.1.symm.trans works

theorem step_worker {worker : Worker ω} {told : Option ERunningState}
    (moves : (this.workers k).step = some (worker, told)) :
    ∃ after, WorkerPool.step this (.worker k) = some after ∧ after.workers k = worker := by
  refine ⟨(this.setWorker k worker).update told, ?_, ?_⟩
  · simp only [WorkerPool.step, moves, bind_eq_bind, bind_some]
  · cases told <;> exact update_self ..

theorem processes_next
    (place : (this.workers k).pc = .processWorkload) (given : (this.workers k).Given) :
    ∃ after, WorkerPool.step this (.worker k) = some after ∧
      (after.workers k).processed = (this.workers k).accepted := by
  rcases given with ⟨w, stored, accepted⟩
  have moves : (this.workers k).step = some ({ this.workers k with
      pc := .setReady
      processed := (this.workers k).processed ++ (this.workers k).workload.toList }, none) := by
    unfold Worker.step
    rw [place]
  rcases step_worker moves with ⟨after, steps, same⟩
  refine ⟨after, steps, ?_⟩
  rw [same, accepted, stored]
  rfl

theorem Consistent.processes (consistent : Consistent this) (k : Fin n) :
    ∃ steps after, steps ≤ 2 ∧
      run WorkerPool.step this (List.replicate steps (.worker k)) = some after ∧
      (after.workers k).processed = (this.workers k).accepted := by
  have ok := consistent.ok k
  have cycle := ok.cycle
  cases place : (this.workers k).pc with
  | checkRunningState =>
    rw [place] at cycle
    rcases cycle with ⟨_, done⟩ | ⟨works, given⟩
    · exact ⟨0, this, by decide, rfl, done.symm⟩
    · have running := ok.working works
      have moves : (this.workers k).step =
          some ({ this.workers k with pc := .processWorkload }, none) := by
        unfold Worker.step
        rw [place]
        simp only [running, works, ne_eq, not_true_eq_false, if_false, if_true]
      rcases step_worker moves with ⟨first, steps, same⟩
      have placeNow : (first.workers k).pc = .processWorkload := by
        rw [same]
      have givenNow : (first.workers k).Given := by
        rw [same]
        exact given
      rcases processes_next placeNow givenNow with ⟨after, alsoSteps, processed⟩
      refine ⟨2, after, Nat.le_refl 2, ?_, ?_⟩
      · simp only [List.replicate, run, steps, alsoSteps, bind_eq_bind, bind_some]
      · rw [processed, same]
  | processWorkload =>
    rw [place] at cycle
    rcases processes_next place cycle.2 with ⟨after, steps, processed⟩
    refine ⟨1, after, by decide, ?_, processed⟩
    simp only [List.replicate, run, steps, bind_eq_bind, bind_some]
  | setReady =>
    rw [place] at cycle
    exact ⟨0, this, by decide, rfl, cycle.2.symm⟩
  | leaveRun | exit | ended =>
    rw [place] at cycle
    exact ⟨0, this, by decide, rfl, cycle.2.2.symm⟩

theorem Consistent.handsOver (consistent : Consistent this) : HandsOver this where
  inOrder := by
    intro k
    have cycle := (consistent.ok k).cycle
    cases place : (this.workers k).pc with
    | checkRunningState =>
      rw [place] at cycle
      rcases cycle with ⟨_, done⟩ | ⟨_, w, _, given⟩
      · exact .inl done
      · exact .inr ⟨w, given⟩
    | processWorkload =>
      rw [place] at cycle
      rcases cycle with ⟨_, w, _, given⟩
      exact .inr ⟨w, given⟩
    | setReady =>
      rw [place] at cycle
      exact .inl cycle.2
    | leaveRun | exit | ended =>
      rw [place] at cycle
      exact .inl cycle.2.2
  processes := consistent.processes
  once := consistent.ledger.once
  nonneg := by
    rw [consistent.count]
    exact Int.natCast_nonneg _
  le := by
    have le := working_le this
    rw [consistent.count]
    omega
  zero := by
    intro finished
    have zero : this.working = 0 := Finset.sum_eq_zero fun k _ =>
      consistent.works_eq_zero (finished k).1 (finished k).2.1 (finished k).2.2
    rw [consistent.count, zero]
    rfl

/-- In every run in which each request for termination finds a worker without
work. -/
theorem new_run_handsOver {this : WorkerPool n ι ω} {moves : List (WorkerPoolMove n ι ω)}
    (along : Along step Meets new moves)
    (runs : run step new moves = some this) : HandsOver this := by
  have keeps : ∀ (before : WorkerPool n ι ω) move after,
      Consistent before → Meets before move → before.step move = some after → Consistent after :=
    fun _ _ _ consistent meets steps => consistent.step meets steps
  exact (run_invariant keeps new_consistent along runs).handsOver

private def handedOver : List (WorkerPoolMove 1 Bool Unit) :=
  .enter false () (-1) :: List.replicate 4 (.client false true)

/-- A workload is handed over and processed, and the worker is terminated
when it is ready. -/
theorem new_run_handsOver_ready :
    ∃ this : WorkerPool 1 Bool Unit, run step new
        (handedOver ++ List.replicate 3 (WorkerPoolMove.worker 0) ++
        [WorkerPoolMove.terminate 0] ++ List.replicate 3 (WorkerPoolMove.worker 0)) = some this ∧
      (this.workers 0).processed = [⟨0, ()⟩] ∧ HandsOver this := by
  have along : Along step Meets (new : WorkerPool 1 Bool Unit)
      (handedOver ++ List.replicate 3 (WorkerPoolMove.worker 0) ++ [WorkerPoolMove.terminate 0] ++
        List.replicate 3 (WorkerPoolMove.worker 0)) := by
    refine .cons trivial rfl (.cons trivial rfl (.cons trivial rfl ?_))
    refine .cons trivial rfl (.cons trivial rfl (.cons trivial rfl ?_))
    refine .cons trivial rfl (.cons trivial rfl ?_)
    refine .cons (fun _ => rfl) rfl ?_
    exact .cons trivial rfl (.cons trivial rfl (.cons trivial rfl trivial))
  exact ⟨_, rfl, rfl, new_run_handsOver along rfl⟩

/-- A request for termination comes between the hand-over and the worker's
look at its state: the workload is never processed.  One comes while the
worker processes it: the count stays. -/
theorem not_new_run_handsOver :
    (¬ ∀ (moves : List (WorkerPoolMove 1 Bool Unit))
      (this : WorkerPool 1 Bool Unit), run step new moves = some this →
        (this.workers 0).pc = .ended → (this.workers 0).accepted = (this.workers 0).processed) ∧
    ¬ ∀ (moves : List (WorkerPoolMove 1 Bool Unit))
      (this : WorkerPool 1 Bool Unit), run step new moves = some this →
        (∀ k, (this.workers k).accepted = (this.workers k).processed ∧
          (this.workers k).pc = .ended) →
          this.fpStatEvtHandler.fCurrentParallelRequests = 0 := by
  constructor
  · intro always
    have processed := always (handedOver ++ [WorkerPoolMove.terminate 0] ++
      List.replicate 3 (WorkerPoolMove.worker 0)) _ rfl rfl
    cases processed
  · intro always
    have zero := always (handedOver ++ [WorkerPoolMove.worker 0, .terminate 0] ++
      List.replicate 5 (WorkerPoolMove.worker 0)) _ rfl
      (fun k => by rw [Fin.eq_zero k]; exact ⟨rfl, rfl⟩)
    cases zero

end WorkerPool

end Coast
