import Coast.Queueing.Queue

/-!
# What a step of a call does

One constructor for each way in which a call goes on.
-/

namespace Coast

open Option

namespace Queue

variable {ι ε : Type}

variable {this after : Queue ι ε} {me : ι}

section

variable {β : Type} {f : Queue ι ε → β} {result : β}

theorem map_lockReading (locks : (this.lockReading me).map f = some result) :
    this.fBlockedLock.writer = none ∧
      f (this.setBlockedLock ⟨me :: this.fBlockedLock.readers, none⟩) = result := by
  unfold lockReading at locks
  split at locks <;> cases locks
  rename_i free
  exact ⟨isNone_iff_eq_none.mp free, rfl⟩

theorem map_lockWriting (locks : (this.lockWriting me).map f = some result) :
    this.fBlockedLock.writer = none ∧ this.fBlockedLock.readers = [] ∧
      f (this.setBlockedLock ⟨[], some me⟩) = result := by
  unfold lockWriting at locks
  split at locks <;> cases locks
  rename_i free
  rw [Bool.and_eq_true] at free
  exact ⟨isNone_iff_eq_none.mp free.1, List.isEmpty_iff.mp free.2, rfl⟩

theorem map_lockQueue (locks : (this.lockQueue me).map f = some result) :
    this.fQueueLock = none ∧ f (this.setQueueLock (some me)) = result := by
  unfold lockQueue at locks
  split at locks <;> cases locks
  rename_i free
  exact ⟨isNone_iff_eq_none.mp free, rfl⟩

theorem map_lockBlocking {side : QueueSide}
    (locks : (this.lockBlocking side me).map f = some result) :
    this.fBlockingLock side = none ∧ f (this.setBlockingLock side (some me)) = result := by
  unfold lockBlocking at locks
  split at locks <;> cases locks
  rename_i free
  exact ⟨isNone_iff_eq_none.mp free, rfl⟩

end

variable [DecidableEq ι]

section

variable (this : Queue ι ε) (me : ι) (call : Nat) (op : Access ε) (tryLock : Bool)

/-- The steps of `Put` and `Get`, one by one. -/
inductive AccessStep : AccessPc → Queue ι ε → AccessPc → Prop
  | dead (notAlive : this.fAlive = false) : AccessStep .firstLock this (.returned .eBlocked)
  | firstLock (free : this.fBlockedLock.writer = none) : AccessStep .firstLock
        (this.setBlockedLock ⟨me :: this.fBlockedLock.readers, none⟩) .firstRead
  | refused (blocked : this.feBlocked.has op.side = true) :
      AccessStep .firstRead (this.unlockReading me) (.returned .eBlocked)
  | tries (open' : this.feBlocked.has op.side = false) (mode : tryLock = true) :
      AccessStep .firstRead (this.unlockReading me) .tryAcquire
  | enters (open' : this.feBlocked.has op.side = false) (mode : tryLock = false) :
      AccessStep .firstRead (this.unlockReading me) .enterLock
  | tryAcquire (slot : 0 < this.fSema op.side) :
      AccessStep .tryAcquire (this.acquireSema op.side) .secondLock
  | noSlot (empty : this.fSema op.side = 0) : AccessStep .tryAcquire this (.returned op.noSlot)
  | enterLock (free : this.fBlockingLock op.side = none) : AccessStep .enterLock
        (this.setBlockingLock op.side (some me)) .enterCount
  | enterCount : AccessStep .enterCount ((this.setBlockingCount op.side
          (this.fBlockingCount op.side + 1)).setBlockingLock op.side none) .acquire
  | notAcquired : AccessStep .acquire this (.leaveLock op.notAcquired)
  | acquire (slot : 0 < this.fSema op.side) :
      AccessStep .acquire (this.acquireSema op.side) .aliveCheck
  | alive (isAlive : this.fAlive = true) : AccessStep .aliveCheck this .secondLock
  | died (notAlive : this.fAlive = false) : AccessStep .aliveCheck this .giveBack
  | giveBack : AccessStep .giveBack (this.releaseSema op.side) (.leaveLock .eDead)
  | secondDead (notAlive : this.fAlive = false) :
      AccessStep .secondLock this (leave tryLock .eBlocked)
  | secondLock (free : this.fBlockedLock.writer = none) : AccessStep .secondLock
        (this.setBlockedLock ⟨me :: this.fBlockedLock.readers, none⟩) .secondRead
  | drops (blocked : this.feBlocked.has op.side = true) :
      AccessStep .secondRead (this.unlockReading me) (leave tryLock .eBlocked)
  | passes (open' : this.feBlocked.has op.side = false) :
      AccessStep .secondRead (this.unlockReading me) .queueLock
  | queueLock (free : this.fQueueLock = none) :
      AccessStep .queueLock (this.setQueueLock (some me)) .container
  | pushes (anyElement : ε) (puts : op = .put anyElement) :
      AccessStep .container (this.pushBack call anyElement) .release
  | pops (gets : op = .get) (front : Nat × ε) (rest : List (Nat × ε))
      (full : this.fContainer = front :: rest) :
      AccessStep .container (this.popFront call front rest) .release
  | finds (gets : op = .get) (empty : this.fContainer = []) :
      AccessStep .container this (.queueUnlock .eEmptyError)
  | release : AccessStep .release (this.releaseSema op.side.other) (.queueUnlock .eSuccess)
  | queueUnlock (eRet : StatusCode) : AccessStep (.queueUnlock eRet)
        (this.setQueueLock none) (leave tryLock eRet)
  | leaveLock (eRet : StatusCode) (free : this.fBlockingLock op.side = none) :
      AccessStep (.leaveLock eRet) (this.setBlockingLock op.side (some me)) (.leaveSignal eRet)
  | leaveSignal (eRet : StatusCode) : AccessStep (.leaveSignal eRet) ((this.setBlockingCount op.side
          (this.fBlockingCount op.side - 1)).setBlockingCond op.side
            (this.fBlockingCond op.side).tail) (.leaveUnlock eRet)
  | leaveUnlock (eRet : StatusCode) : AccessStep (.leaveUnlock eRet)
        (this.setBlockingLock op.side none) (.returned eRet)

end

theorem goAccess_step {call : Nat} {op : Access ε} {tryLock interrupted : Bool} {pc next : AccessPc}
    (steps : this.goAccess me call op tryLock interrupted pc = some (after, next)) :
    AccessStep this me call op tryLock pc after next := by
  cases pc with
  | firstLock =>
    dsimp only [goAccess] at steps
    split at steps
    · rcases map_lockReading steps with ⟨free, same⟩
      cases same
      exact .firstLock free
    · rename_i notAlive
      cases steps
      exact .dead (Bool.eq_false_iff.mpr notAlive)
  | firstRead =>
    cases steps
    split
    · exact .refused (by assumption)
    · rename_i notBlocked
      have open' := Bool.eq_false_iff.mpr notBlocked
      split
      · exact .tries open' (by assumption)
      · rename_i waits
        exact .enters open' (Bool.eq_false_iff.mpr waits)
  | tryAcquire =>
    dsimp only [goAccess] at steps
    split at steps <;> cases steps
    · exact .tryAcquire (by assumption)
    · exact .noSlot (Nat.eq_zero_of_not_pos (by assumption))
  | enterLock =>
    rcases map_lockBlocking steps with ⟨free, same⟩
    cases same
    exact .enterLock free
  | enterCount =>
    cases steps
    exact .enterCount
  | acquire =>
    dsimp only [goAccess] at steps
    split at steps
    · cases steps
      exact .notAcquired
    · split at steps <;> cases steps
      exact .acquire (by assumption)
  | aliveCheck =>
    cases steps
    split
    · exact .alive (by assumption)
    · rename_i notAlive
      exact .died (Bool.eq_false_iff.mpr notAlive)
  | giveBack =>
    cases steps
    exact .giveBack
  | secondLock =>
    dsimp only [goAccess] at steps
    split at steps
    · rcases map_lockReading steps with ⟨free, same⟩
      cases same
      exact .secondLock free
    · rename_i notAlive
      cases steps
      exact .secondDead (Bool.eq_false_iff.mpr notAlive)
  | secondRead =>
    cases steps
    split
    · exact .drops (by assumption)
    · rename_i notBlocked
      exact .passes (Bool.eq_false_iff.mpr notBlocked)
  | queueLock =>
    rcases map_lockQueue steps with ⟨free, same⟩
    cases same
    exact .queueLock free
  | container =>
    dsimp only [goAccess] at steps
    split at steps <;> cases steps
    · exact .pushes _ rfl
    · exact .pops rfl _ _ (by assumption)
    · exact .finds rfl (by assumption)
  | release =>
    cases steps
    exact .release
  | queueUnlock eRet =>
    cases steps
    exact .queueUnlock eRet
  | leaveLock eRet =>
    rcases map_lockBlocking steps with ⟨free, same⟩
    cases same
    exact .leaveLock eRet free
  | leaveSignal eRet =>
    cases steps
    exact .leaveSignal eRet
  | leaveUnlock eRet =>
    cases steps
    exact .leaveUnlock eRet
  | returned eRet => cases steps

section

variable (this : Queue ι ε) (me : ι) (call : Nat)

/-- The steps of `EmptyQueue`. -/
inductive EmptyStep : EmptyPc → Queue ι ε → EmptyPc → Prop
  | dead : EmptyStep .lock this .returned
  | lock (free : this.fBlockedLock.writer = none) : EmptyStep .lock
        (this.setBlockedLock ⟨me :: this.fBlockedLock.readers, none⟩) .read
  | refused : EmptyStep .read (this.unlockReading me) .returned
  | passes : EmptyStep .read (this.unlockReading me) .queueLock
  | queueLock (free : this.fQueueLock = none) : EmptyStep .queueLock (this.setQueueLock (some me))
        (.acquire this.fContainer.length)
  | done : EmptyStep (.acquire 0) this .queueUnlock
  | acquire (lSize : Nat) (slot : 0 < this.fSema .get) :
      EmptyStep (.acquire (lSize + 1)) (this.acquireSema .get) (.move lSize true)
  | noSlot (lSize : Nat) (empty : this.fSema .get = 0) :
      EmptyStep (.acquire (lSize + 1)) this (.move lSize false)
  | move (lSize : Nat) (acquired : Bool) (front : Nat × ε)
      (rest : List (Nat × ε)) (full : this.fContainer = front :: rest) :
      EmptyStep (.move lSize acquired) (this.popFront call front rest) (.release lSize)
  | release (lSize : Nat) : EmptyStep (.release lSize) (this.releaseSema .put) (.acquire lSize)
  | queueUnlock : EmptyStep .queueUnlock (this.setQueueLock none) .returned

end

theorem goEmpty_step {call : Nat} {pc next : EmptyPc}
    (steps : this.goEmpty me call pc = some (after, next)) :
    EmptyStep this me call pc after next := by
  cases pc with
  | lock =>
    dsimp only [goEmpty] at steps
    split at steps
    · rcases map_lockReading steps with ⟨free, same⟩
      cases same
      exact .lock free
    · cases steps
      exact .dead
  | read =>
    cases steps
    split
    · exact .refused
    · exact .passes
  | queueLock =>
    rcases map_lockQueue steps with ⟨free, same⟩
    cases same
    exact .queueLock free
  | acquire lSize =>
    cases lSize with
    | zero =>
      cases steps
      exact .done
    | succ lSize =>
      dsimp only [goEmpty] at steps
      split at steps <;> cases steps
      · exact .acquire lSize (by assumption)
      · exact .noSlot lSize (Nat.eq_zero_of_not_pos (by assumption))
  | move lSize acquired =>
    dsimp only [goEmpty] at steps
    split at steps <;> cases steps
    exact .move lSize acquired _ _ (by assumption)
  | release lSize =>
    cases steps
    exact .release lSize
  | queueUnlock =>
    cases steps
    exact .queueUnlock
  | returned => cases steps

section

variable (this : Queue ι ε) (me : ι) (aSide : BlockingSide)

/-- The steps of `Block`. -/
inductive BlockStep : BlockPc → Queue ι ε → BlockPc → Prop
  | dead : BlockStep .lock this .returned
  | lock (free : this.fBlockedLock.writer = none) (unread : this.fBlockedLock.readers = []) :
      BlockStep .lock (this.setBlockedLock ⟨[], some me⟩) .write
  | write : BlockStep .write (this.unlockWriting (this.feBlocked.union aSide)) .queueLock
  | queueLock (free : this.fQueueLock = none) :
      BlockStep .queueLock (this.setQueueLock (some me)) (.enter aSide.toList)
  | done : BlockStep (.enter []) this .queueUnlock
  | enter (side : QueueSide) (sides : List QueueSide) (free : this.fBlockingLock side = none) :
      BlockStep (.enter (side :: sides)) (this.setBlockingLock side (some me)) (.loop side sides)
  | none' (side : QueueSide) (sides : List QueueSide) (left : this.fBlockingCount side = 0) :
      BlockStep (.loop side sides) (this.setBlockingLock side none) (.enter sides)
  | release (side : QueueSide) (sides : List QueueSide) (left : this.fBlockingCount side ≠ 0) :
      BlockStep (.loop side sides) (this.releaseSema side) (.wait side sides)
  | wait (side : QueueSide) (sides : List QueueSide) : BlockStep (.wait side sides)
        ((this.setBlockingLock side none).setBlockingCond side
          (this.fBlockingCond side ++ [me])) (.waiting side sides)
  | wakes (side : QueueSide) (sides : List QueueSide) (free : this.fBlockingLock side = none) :
      BlockStep (.waiting side sides) ((this.setBlockingLock side (some me)).setBlockingCond side
          ((this.fBlockingCond side).filter fun other => other ≠ me)) (.loop side sides)
  | queueUnlock : BlockStep .queueUnlock (this.setQueueLock none) .returned

end

theorem goBlock_step {aSide : BlockingSide} {interrupted : Bool} {pc next : BlockPc}
    (steps : this.goBlock me aSide interrupted pc = some (after, next)) :
    BlockStep this me aSide pc after next := by
  cases pc with
  | lock =>
    dsimp only [goBlock] at steps
    split at steps
    · rcases map_lockWriting steps with ⟨free, unread, same⟩
      cases same
      exact .lock free unread
    · cases steps
      exact .dead
  | write =>
    cases steps
    exact .write
  | queueLock =>
    rcases map_lockQueue steps with ⟨free, same⟩
    cases same
    exact .queueLock free
  | enter sides =>
    cases sides with
    | nil =>
      cases steps
      exact .done
    | cons side sides =>
      rcases map_lockBlocking steps with ⟨free, same⟩
      cases same
      exact .enter side sides free
  | loop side sides =>
    dsimp only [goBlock] at steps
    split at steps <;> cases steps
    · exact .none' side sides (by assumption)
    · exact .release side sides (by assumption)
  | wait side sides =>
    cases steps
    exact .wait side sides
  | waiting side sides =>
    dsimp only [goBlock] at steps
    split at steps
    · rcases map_lockBlocking steps with ⟨free, same⟩
      cases same
      exact .wakes side sides free
    · cases steps
  | queueUnlock =>
    cases steps
    exact .queueUnlock
  | returned => cases steps

section

variable (this : Queue ι ε) (me : ι) (aSide : BlockingSide)

inductive UnBlockStep : UnBlockPc → Queue ι ε → UnBlockPc → Prop
  | dead : UnBlockStep .lock this .returned
  | lock (free : this.fBlockedLock.writer = none) (unread : this.fBlockedLock.readers = []) :
      UnBlockStep .lock (this.setBlockedLock ⟨[], some me⟩) .write
  | write : UnBlockStep .write (this.unlockWriting (this.feBlocked.without aSide)) .returned

end

omit [DecidableEq ι] in
theorem goUnBlock_step {this after : Queue ι ε} {me : ι} {aSide : BlockingSide}
    {pc next : UnBlockPc} (steps : this.goUnBlock me aSide pc = some (after, next)) :
    UnBlockStep this me aSide pc after next := by
  cases pc with
  | lock =>
    dsimp only [goUnBlock] at steps
    split at steps
    · rcases map_lockWriting steps with ⟨free, unread, same⟩
      cases same
      exact .lock free unread
    · cases steps
      exact .dead
  | write =>
    cases steps
    exact .write
  | returned => cases steps

end Queue

namespace QueueSystem

variable {ι ε : Type} [DecidableEq ι]

open Queue

/-- The steps of a client, by its call. -/
inductive GoStep (queue : Queue ι ε) (me : ι) (number : Nat) :
    QueuePc ε → Queue ι ε → QueuePc ε → Prop
  | access {op : Access ε} {bTryLock : Bool} {pc next : AccessPc} {after : Queue ι ε}
      (steps : AccessStep queue me number op bTryLock pc after next) :
      GoStep queue me number (.access op bTryLock pc) after (.access op bTryLock next)
  | emptyQueue {pc next : EmptyPc} {after : Queue ι ε}
      (steps : EmptyStep queue me number pc after next) :
      GoStep queue me number (.emptyQueue pc) after (.emptyQueue next)
  | block {aSide : BlockingSide} {pc next : BlockPc} {after : Queue ι ε}
      (steps : BlockStep queue me aSide pc after next) :
      GoStep queue me number (.block aSide pc) after (.block aSide next)
  | unBlock {aSide : BlockingSide} {pc next : UnBlockPc} {after : Queue ι ε}
      (steps : UnBlockStep queue me aSide pc after next) :
      GoStep queue me number (.unBlock aSide pc) after (.unBlock aSide next)

theorem goOn_step {queue after : Queue ι ε} {me : ι} {number : Nat} {interrupted : Bool}
    {pc next : QueuePc ε} (steps : goOn queue me number interrupted pc = some (after, next)) :
    GoStep queue me number pc after next := by
  cases pc with
  | idle => cases steps
  | access op bTryLock pc =>
    rcases map_eq_some_iff.mp steps with ⟨_, goes, same⟩
    cases same
    exact .access (goAccess_step goes)
  | emptyQueue pc =>
    rcases map_eq_some_iff.mp steps with ⟨_, goes, same⟩
    cases same
    exact .emptyQueue (goEmpty_step goes)
  | block aSide pc =>
    rcases map_eq_some_iff.mp steps with ⟨_, goes, same⟩
    cases same
    exact .block (goBlock_step goes)
  | unBlock aSide pc =>
    rcases map_eq_some_iff.mp steps with ⟨_, goes, same⟩
    cases same
    exact .unBlock (goUnBlock_step goes)

/-- The steps of the system. -/
inductive Step (this : QueueSystem ι ε) : QueueMove ι ε → QueueSystem ι ε → Prop
  | call (client : ι) (call : QueueCall ε) (idle : this.clients client = .idle) :
      Step this (.call client call) { this.moveTo client call.begin with
          numbers := Function.update this.numbers client this.begun.length
          begun := this.begun ++ [call] }
  | status (client : ι) (interrupted : Bool) (eRet : StatusCode)
      (back : returns (this.clients client) = some (some eRet)) : Step this (.go client interrupted)
        { this.moveTo client .idle with returned := this.returned ++ [(this.numbers client, eRet)] }
  | void (client : ι) (interrupted : Bool) (back : returns (this.clients client) = some none) :
      Step this (.go client interrupted) (this.moveTo client .idle)
  | go (client : ι) (interrupted : Bool) (queue : Queue ι ε) (next : QueuePc ε)
      (goes : GoStep this.queue client (this.numbers client) (this.clients client) queue next) :
      Step this (.go client interrupted) { this.moveTo client next with queue := queue }

/-- Every step of the system is one of these. -/
theorem step_eq_some {this after : QueueSystem ι ε} {move : QueueMove ι ε}
    (steps : this.step move = some after) : Step this move after := by
  cases move with
  | call client call =>
    dsimp only [step] at steps
    split at steps <;> cases steps
    exact .call client call (by assumption)
  | go client interrupted =>
    dsimp only [step] at steps
    split at steps
    · cases steps
      exact .status client interrupted _ (by assumption)
    · cases steps
      exact .void client interrupted (by assumption)
    · rcases map_eq_some_iff.mp steps with ⟨_, goes, same⟩
      cases same
      exact .go client interrupted _ _ (goOn_step goes)

end QueueSystem

end Coast
