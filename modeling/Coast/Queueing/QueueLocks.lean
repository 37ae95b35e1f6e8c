import Coast.Library.Ownership
import Coast.Library.Runs
import Coast.Queueing.QueueSteps

/-!
# Who holds the locks of the queue

Where a client is in its call says which locks it holds; the locks agree with
it in every reachable state.
-/

namespace Coast

open Ownership Runs List Function

def AccessPc.holdsQueue : AccessPc → Bool
  | .container | .release | .queueUnlock _ => true
  | _ => false

def AccessPc.holdsBlocking : AccessPc → Bool
  | .enterCount | .leaveSignal _ | .leaveUnlock _ => true
  | _ => false

def AccessPc.reads : AccessPc → Bool
  | .firstRead | .secondRead => true
  | _ => false

@[simp]
theorem leave_holdsQueue (tryLock : Bool) (eRet : StatusCode) :
    (Queue.leave tryLock eRet).holdsQueue = false := by
  cases tryLock <;> rfl

@[simp]
theorem leave_holdsBlocking (tryLock : Bool) (eRet : StatusCode) :
    (Queue.leave tryLock eRet).holdsBlocking = false := by
  cases tryLock <;> rfl

@[simp]
theorem leave_reads (tryLock : Bool) (eRet : StatusCode) :
    (Queue.leave tryLock eRet).reads = false := by
  cases tryLock <;> rfl

namespace QueuePc

variable {ε : Type}

def holdsQueue : QueuePc ε → Bool
  | .access _ _ pc => pc.holdsQueue
  | .emptyQueue (.acquire _) | .emptyQueue (.move _ _)
  | .emptyQueue (.release _) | .emptyQueue .queueUnlock => true
  | .block _ (.enter _) | .block _ (.loop _ _) | .block _ (.wait _ _)
  | .block _ (.waiting _ _) | .block _ .queueUnlock => true
  | _ => false

def holdsBlocking (side : QueueSide) : QueuePc ε → Bool
  | .access op _ pc => op.side = side && pc.holdsBlocking
  | .block _ (.loop at' _) | .block _ (.wait at' _) => at' = side
  | _ => false

def reads : QueuePc ε → Bool
  | .access _ _ pc => pc.reads
  | .emptyQueue .read => true
  | _ => false

def writes : QueuePc ε → Bool
  | .block _ .write | .unBlock _ .write => true
  | _ => false

def waitsAt (side : QueueSide) : QueuePc ε → Bool
  | .block _ (.waiting at' _) => at' = side
  | _ => false

end QueuePc

namespace QueueSystem

open Queue

variable {ι ε : Type} [DecidableEq ι]

/-! ## A step of a call on the locks -/

section

variable {queue after : Queue ι ε} {me : ι} {number : Nat} {pc next : QueuePc ε}

theorem GoStep.queueLock (goes : GoStep queue me number pc after next) :
    OwnStep me queue.fQueueLock pc.holdsQueue after.fQueueLock next.holdsQueue := by
  cases goes with
  | access steps =>
    cases steps with
    | queueLock free =>
      rw [free]
      exact .take
    | queueUnlock eRet =>
      dsimp only [QueuePc.holdsQueue]
      rw [leave_holdsQueue]
      exact .release _
    | secondDead | drops =>
      dsimp only [QueuePc.holdsQueue]
      rw [leave_holdsQueue]
      exact .keep _ _
    | _ => exact .keep _ _
  | emptyQueue steps =>
    cases steps with
    | queueLock free =>
      rw [free]
      exact .take
    | queueUnlock => exact .release _
    | _ => exact .keep _ _
  | block steps =>
    cases steps with
    | queueLock free =>
      rw [free]
      exact .take
    | queueUnlock => exact .release _
    | _ => exact .keep _ _
  | unBlock steps => cases steps <;> exact .keep _ _

omit [DecidableEq ι] in
theorem ownStep_update {locks : QueueSide → Option ι} {at' side : QueueSide} {lock : Option ι}
    {held held' : Bool} (steps : OwnStep me (locks at') held lock held') :
    OwnStep me (locks side) (at' = side && held)
      (Function.update locks at' lock side) (at' = side && held') := by
  by_cases same : at' = side
  · cases same
    rw [update_self, decide_eq_true rfl, Bool.true_and, Bool.true_and]
    exact steps
  · rw [update_of_ne (Ne.symm same), decide_eq_false same]
    exact .keep _ _

variable (goes : GoStep queue me number pc after next)
include goes

theorem GoStep.blockingLock (side : QueueSide) :
    OwnStep me (queue.fBlockingLock side) (pc.holdsBlocking side)
      (after.fBlockingLock side) (next.holdsBlocking side) := by
  cases goes with
  | @access op _ _ _ _ steps =>
    cases steps with
    | enterLock free | leaveLock _ free =>
      apply ownStep_update
      rw [free]
      exact .take
    | enterCount | leaveUnlock => exact ownStep_update (.release _)
    | secondDead | drops | queueUnlock =>
      dsimp only [QueuePc.holdsBlocking]
      rw [leave_holdsBlocking]
      exact .keep _ _
    | _ => exact .keep _ _
  | emptyQueue steps => cases steps <;> exact .keep _ _
  | block steps =>
    cases steps with
    | enter at' sides free | wakes at' sides free =>
      have taken : OwnStep me (queue.fBlockingLock at') false (some me) true := by
        rw [free]
        exact .take
      have both : OwnStep me (queue.fBlockingLock side)
          (at' = side && false) _ (at' = side && true) :=
        ownStep_update taken
      rw [Bool.and_false, Bool.and_true] at both
      exact both
    | none' at' sides left | wait at' sides =>
      have released : OwnStep me (queue.fBlockingLock at') true none false := .release _
      have both : OwnStep me (queue.fBlockingLock side)
          (at' = side && true) _ (at' = side && false) :=
        ownStep_update released
      rw [Bool.and_false, Bool.and_true] at both
      exact both
    | _ => exact .keep _ _
  | unBlock steps => cases steps <;> exact .keep _ _

theorem GoStep.blockedReaders :
    ShareStep me queue.fBlockedLock.readers pc.reads after.fBlockedLock.readers next.reads := by
  cases goes with
  | access steps =>
    cases steps with
    | firstLock | secondLock => exact .enter _
    | refused | tries | enters | passes => exact .leave _
    | drops =>
      dsimp only [QueuePc.reads]
      rw [leave_reads]
      exact .leave _
    | secondDead | queueUnlock =>
      dsimp only [QueuePc.reads]
      rw [leave_reads]
      exact .keep _ _
    | _ => exact .keep _ _
  | emptyQueue steps =>
    cases steps with
    | lock => exact .enter _
    | refused | passes => exact .leave _
    | _ => exact .keep _ _
  | block steps =>
    cases steps with
    | lock free unread =>
      rw [unread]
      exact .keep _ _
    | _ => exact .keep _ _
  | unBlock steps =>
    cases steps with
    | lock free unread =>
      rw [unread]
      exact .keep _ _
    | _ => exact .keep _ _

theorem GoStep.blockedWriter :
    OwnStep me queue.fBlockedLock.writer pc.writes after.fBlockedLock.writer next.writes := by
  cases goes with
  | access steps =>
    cases steps with
    | firstLock free | secondLock free =>
      rw [free]
      exact .keep _ _
    | _ => exact .keep _ _
  | emptyQueue steps =>
    cases steps with
    | lock free =>
      rw [free]
      exact .keep _ _
    | _ => exact .keep _ _
  | block steps =>
    cases steps with
    | lock free unread =>
      rw [free]
      exact .take
    | write => exact .release _
    | _ => exact .keep _ _
  | unBlock steps =>
    cases steps with
    | lock free unread =>
      rw [free]
      exact .take
    | write => exact .release _
    | _ => exact .keep _ _

theorem GoStep.waiters {side : QueueSide}
    (mine : me ∈ queue.fBlockingCond side → pc.waitsAt side = true) {c : ι}
    (waits : c ∈ after.fBlockingCond side) :
    c ∈ queue.fBlockingCond side ∧ c ≠ me ∨ c = me ∧ next.waitsAt side = true := by
  have others : pc.waitsAt side = false →
      c ∈ queue.fBlockingCond side → c ∈ queue.fBlockingCond side ∧ c ≠ me := by
    intro other was
    refine ⟨was, ?_⟩
    intro same
    rw [same] at was
    rw [mine was] at other
    cases other
  cases goes with
  | access steps =>
    left
    cases steps with
    | @leaveSignal eRet =>
      apply others rfl
      dsimp only [setBlockingCond] at waits
      rw [update_apply] at waits
      split at waits
      · rename_i same
        rw [same]
        exact mem_of_mem_tail waits
      · exact waits
    | _ => exact others rfl waits
  | emptyQueue steps => cases steps <;> exact Or.inl (others rfl waits)
  | block steps =>
    cases steps with
    | wait at' sides =>
      dsimp only [setBlockingCond, setBlockingLock] at waits
      rw [update_apply] at waits
      split at waits
      · rename_i same
        rcases mem_append.mp waits with was | new
        · rw [← same] at was
          exact Or.inl (others rfl was)
        · right
          exact ⟨mem_singleton.mp new, decide_eq_true same.symm⟩
      · exact Or.inl (others rfl waits)
    | wakes at' sides free =>
      left
      dsimp only [setBlockingCond, setBlockingLock] at waits
      rw [update_apply] at waits
      split at waits
      · rename_i same
        rcases mem_filter.mp waits with ⟨was, different⟩
        rw [same]
        exact ⟨was, of_decide_eq_true different⟩
      · rename_i different
        exact others (decide_eq_false (Ne.symm different)) waits
    | _ => exact Or.inl (others rfl waits)
  | unBlock steps => cases steps <;> exact Or.inl (others rfl waits)

end

/-! ## The locks in a run -/

/-- The client holds no lock and waits for no caller. -/
structure Calm (pc : QueuePc ε) : Prop where
  queueLock : pc.holdsQueue = false
  blockingLock : ∀ side, pc.holdsBlocking side = false
  reads : pc.reads = false
  writes : pc.writes = false
  waits : ∀ side, pc.waitsAt side = false

theorem calm_idle : Calm (.idle : QueuePc ε) := ⟨rfl, fun _ => rfl, rfl, rfl, fun _ => rfl⟩

theorem calm_begin (call : QueueCall ε) : Calm call.begin := by
  cases call with
  | access op bTryLock =>
    exact ⟨rfl, fun _ => Bool.and_false _, rfl, rfl, fun _ => rfl⟩
  | emptyQueue | block | unBlock =>
    exact ⟨rfl, fun _ => rfl, rfl, rfl, fun _ => rfl⟩

theorem calm_of_returns {pc : QueuePc ε} {eRet : Option StatusCode}
    (back : returns pc = some eRet) : Calm pc := by
  unfold returns at back
  split at back
  · exact ⟨rfl, fun _ => Bool.and_false _, rfl, rfl, fun _ => rfl⟩
  · exact ⟨rfl, fun _ => rfl, rfl, rfl, fun _ => rfl⟩
  · exact ⟨rfl, fun _ => rfl, rfl, rfl, fun _ => rfl⟩
  · exact ⟨rfl, fun _ => rfl, rfl, rfl, fun _ => rfl⟩
  · cases back

/-- Who holds the locks, by where the clients are. -/
structure Locks (queue : Queue ι ε) (clients : ι → QueuePc ε) : Prop where
  queueLock : Owns queue.fQueueLock fun c => (clients c).holdsQueue
  blockingLock : ∀ side, Owns (queue.fBlockingLock side) fun c => (clients c).holdsBlocking side
  readers : Shares queue.fBlockedLock.readers fun c => (clients c).reads
  writer : Owns queue.fBlockedLock.writer fun c => (clients c).writes
  waiters : ∀ side c, c ∈ queue.fBlockingCond side → (clients c).waitsAt side = true

section

variable {queue after : Queue ι ε} {clients : ι → QueuePc ε} {me : ι}
  {number : Nat} {next : QueuePc ε}

theorem update_other {β : Type} (holds : QueuePc ε → β) (c : ι) (different : c ≠ me) :
    holds (Function.update clients me next c) = holds (clients c) := by
  rw [update_of_ne different]

theorem Locks.calm (locks : Locks queue clients) (before : Calm (clients me))
    (then' : Calm next) : Locks queue (Function.update clients me next) where
  queueLock := by
    apply locks.queueLock.step (update_other QueuePc.holdsQueue)
    rw [update_self, before.queueLock, then'.queueLock]
    exact .keep _ _
  blockingLock := by
    intro side
    apply (locks.blockingLock side).step (update_other (QueuePc.holdsBlocking side))
    rw [update_self, before.blockingLock, then'.blockingLock]
    exact .keep _ _
  readers := by
    apply locks.readers.step (update_other QueuePc.reads)
    rw [update_self, before.reads, then'.reads]
    exact .keep _ _
  writer := by
    apply locks.writer.step (update_other QueuePc.writes)
    rw [update_self, before.writes, then'.writes]
    exact .keep _ _
  waiters := by
    intro side c waits
    have was := locks.waiters side c waits
    have different : c ≠ me := by
      intro same
      rw [same, before.waits] at was
      cases was
    rw [update_of_ne different]
    exact was

theorem Locks.go (locks : Locks queue clients)
    (goes : GoStep queue me number (clients me) after next) :
    Locks after (Function.update clients me next) where
  queueLock := by
    apply locks.queueLock.step (update_other QueuePc.holdsQueue)
    rw [update_self]
    exact goes.queueLock
  blockingLock := by
    intro side
    apply (locks.blockingLock side).step (update_other (QueuePc.holdsBlocking side))
    rw [update_self]
    exact goes.blockingLock side
  readers := by
    apply locks.readers.step (update_other QueuePc.reads)
    rw [update_self]
    exact goes.blockedReaders
  writer := by
    apply locks.writer.step (update_other QueuePc.writes)
    rw [update_self]
    exact goes.blockedWriter
  waiters := by
    intro side c waits
    rcases goes.waiters (locks.waiters side me) waits with ⟨was, different⟩ | ⟨same, waits⟩
    · rw [update_of_ne different]
      exact locks.waiters side c was
    · rw [same, update_self]
      exact waits

end

theorem Locks.step {this after : QueueSystem ι ε} {move : QueueMove ι ε}
    (locks : Locks this.queue this.clients) (steps : Step this move after) :
    Locks after.queue after.clients := by
  cases steps with
  | call client call idle =>
    refine locks.calm ?_ (calm_begin call)
    rw [idle]
    exact calm_idle
  | status client interrupted eRet back =>
    exact locks.calm (calm_of_returns back) calm_idle
  | void client interrupted back =>
    exact locks.calm (calm_of_returns back) calm_idle
  | go client interrupted queue next goes => exact locks.go goes

omit [DecidableEq ι] in

omit [DecidableEq ι] in
/-- In a new queue no lock is held. -/
theorem new_locks {semaMax lQueueSize : Nat} {this : QueueSystem ι ε}
    (created : new semaMax lQueueSize = some this) :
    Locks this.queue this.clients := by
  unfold new at created
  split at created <;> cases created
  exact {
    queueLock := Owns.free fun _ => rfl
    blockingLock := fun _ => Owns.free fun _ => rfl
    readers := ⟨nodup_nil, fun _ => iff_of_false not_mem_nil nofun⟩
    writer := Owns.free fun _ => rfl
    waiters := fun _ _ waits => absurd waits not_mem_nil }

end QueueSystem

end Coast
