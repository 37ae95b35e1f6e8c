import Mathlib.Logic.Function.Basic

/-!
# The queue

Clients put elements into a bounded queue and get them out again.  Two
semaphores count its free and its used slots.  A side of the queue can be
blocked: calls that find their side blocked return, and `Block` wakes those
that wait for a slot.

Every operation on a semaphore, a mutex or a condition is one step; data that
a mutex protects is read and written in the step before or after.
-/

namespace Coast

inductive QueueSide where
  | put
  | get
  deriving DecidableEq, Repr

def QueueSide.other : QueueSide → QueueSide
  | .put => .get
  | .get => .put

/-- The sides that are blocked. -/
structure BlockingSide where
  putSide : Bool
  getSide : Bool
  deriving DecidableEq, Repr

namespace BlockingSide

def eNone : BlockingSide := ⟨false, false⟩

def ePutSide : BlockingSide := ⟨true, false⟩

def eGetSide : BlockingSide := ⟨false, true⟩

def eBothSides : BlockingSide := ⟨true, true⟩

def has (sides : BlockingSide) : QueueSide → Bool
  | .put => sides.putSide
  | .get => sides.getSide

def union (first second : BlockingSide) : BlockingSide :=
  ⟨first.putSide || second.putSide, first.getSide || second.getSide⟩

def without (first second : BlockingSide) : BlockingSide :=
  ⟨first.putSide && !second.putSide, first.getSide && !second.getSide⟩

def toList (sides : BlockingSide) : List QueueSide := [.put, .get].filter sides.has

end BlockingSide

inductive StatusCode where
  | eSuccess
  | eEmpty
  | eFull
  | eBlocked
  | eAcquireFailed
  | eDead
  /-- `eEmpty | eError` -/
  | eEmptyError
  deriving DecidableEq, Repr

structure RWLock (ι : Type) where
  readers : List ι
  writer : Option ι

/-- What `Put` and `Get` do; `Put` has the element. -/
inductive Access (ε : Type) where
  | put (anyElement : ε)
  | get
  deriving DecidableEq, Repr

namespace Access

variable {ε : Type}

def side : Access ε → QueueSide
  | .put _ => .put
  | .get => .get

def noSlot : Access ε → StatusCode
  | .put _ => .eFull
  | .get => .eEmpty

def notAcquired : Access ε → StatusCode
  | .put _ => .eBlocked
  | .get => .eAcquireFailed

end Access

/-- Where a call of `Put` or `Get` is. -/
inductive AccessPc where
  | firstLock
  | firstRead
  | tryAcquire
  | enterLock
  | enterCount
  | acquire
  | aliveCheck
  | giveBack
  | secondLock
  | secondRead
  | queueLock
  | container
  | release
  | queueUnlock (eRet : StatusCode)
  | leaveLock (eRet : StatusCode)
  | leaveSignal (eRet : StatusCode)
  | leaveUnlock (eRet : StatusCode)
  | returned (eRet : StatusCode)
  deriving DecidableEq, Repr

/-- Where a call of `EmptyQueue` is, with the number of elements to move. -/
inductive EmptyPc where
  | lock
  | read
  | queueLock
  | acquire (lSize : Nat)
  | move (lSize : Nat) (acquired : Bool)
  | release (lSize : Nat)
  | queueUnlock
  | returned
  deriving DecidableEq, Repr

/-- Where a call of `Block` is, with the sides that are left. -/
inductive BlockPc where
  | lock
  | write
  | queueLock
  | enter (sides : List QueueSide)
  | loop (side : QueueSide) (sides : List QueueSide)
  | wait (side : QueueSide) (sides : List QueueSide)
  | waiting (side : QueueSide) (sides : List QueueSide)
  | queueUnlock
  | returned
  deriving DecidableEq, Repr

inductive UnBlockPc where
  | lock
  | write
  | returned
  deriving DecidableEq, Repr

/-- The queue.  By side: `fSema` is `fSemaEmptySlots` and `fSemaFullSlots`,
`fBlockingCount` is `fBlockingPutCount` and `fBlockingGetCount`, and so on.
Elements carry the number of the `Put` call; `stored` and `handed` record what
went into the container and what came out, the latter with the number of the
call that took it. -/
structure Queue (ι ε : Type) where
  fAlive : Bool
  feBlocked : BlockingSide
  semaMax : Nat
  fSema : QueueSide → Nat
  fBlockingCount : QueueSide → Nat
  fBlockingLock : QueueSide → Option ι
  fBlockingCond : QueueSide → List ι
  fQueueLock : Option ι
  fBlockedLock : RWLock ι
  fContainer : List (Nat × ε)
  stored : List (Nat × ε)
  handed : List (Nat × (Nat × ε))

namespace Queue

variable {ι ε : Type}

def fSemaEmptySlots (this : Queue ι ε) : Nat := this.fSema .put

def fSemaFullSlots (this : Queue ι ε) : Nat := this.fSema .get

def isBlocked (this : Queue ι ε) (aSide : BlockingSide) : Bool :=
  aSide.toList.all this.feBlocked.has

def acquireSema (this : Queue ι ε) (side : QueueSide) : Queue ι ε :=
  { this with
      fSema := Function.update this.fSema side (this.fSema side - 1) }

/-- `Release`, which fails when the count is as large as it can be. -/
def releaseSema (this : Queue ι ε) (side : QueueSide) : Queue ι ε :=
  { this with
      fSema := Function.update this.fSema side
        (if this.fSema side < this.semaMax then this.fSema side + 1
        else this.fSema side) }

def setBlockingCount (this : Queue ι ε) (side : QueueSide) (count : Nat) : Queue ι ε :=
  { this with
      fBlockingCount := Function.update this.fBlockingCount side count }

def setBlockingLock (this : Queue ι ε) (side : QueueSide) (holder : Option ι) : Queue ι ε :=
  { this with
      fBlockingLock := Function.update this.fBlockingLock side holder }

def setBlockingCond (this : Queue ι ε) (side : QueueSide) (waiters : List ι) : Queue ι ε :=
  { this with
      fBlockingCond := Function.update this.fBlockingCond side waiters }

def setQueueLock (this : Queue ι ε) (holder : Option ι) : Queue ι ε :=
  { this with fQueueLock := holder }

def setBlockedLock (this : Queue ι ε) (lock : RWLock ι) : Queue ι ε :=
  { this with fBlockedLock := lock }

section

variable [DecidableEq ι]

def lockReading (this : Queue ι ε) (me : ι) : Option (Queue ι ε) :=
  if this.fBlockedLock.writer.isNone then
    some (this.setBlockedLock ⟨me :: this.fBlockedLock.readers, none⟩)
  else none

def unlockReading (this : Queue ι ε) (me : ι) : Queue ι ε :=
  this.setBlockedLock ⟨this.fBlockedLock.readers.erase me, this.fBlockedLock.writer⟩

def lockWriting (this : Queue ι ε) (me : ι) : Option (Queue ι ε) :=
  if this.fBlockedLock.writer.isNone &&
      this.fBlockedLock.readers.isEmpty then
    some (this.setBlockedLock ⟨[], some me⟩)
  else none

def unlockWriting (this : Queue ι ε) (feBlocked : BlockingSide) : Queue ι ε :=
  { this.setBlockedLock ⟨this.fBlockedLock.readers, none⟩ with
      feBlocked := feBlocked }

def lockQueue (this : Queue ι ε) (me : ι) : Option (Queue ι ε) :=
  if this.fQueueLock.isNone then some (this.setQueueLock (some me))
  else none

def lockBlocking (this : Queue ι ε) (side : QueueSide) (me : ι) : Option (Queue ι ε) :=
  if (this.fBlockingLock side).isNone then
    some (this.setBlockingLock side (some me))
  else none

/-- The way out of `Put` and `Get`: calls that may wait have been counted. -/
def leave (tryLock : Bool) (eRet : StatusCode) : AccessPc :=
  if tryLock then .returned eRet else .leaveLock eRet

def popFront (this : Queue ι ε) (call : Nat) (front : Nat × ε)
    (rest : List (Nat × ε)) : Queue ι ε :=
  { this with
      fContainer := rest
      handed := this.handed ++ [(call, front)] }

def pushBack (this : Queue ι ε) (call : Nat) (anyElement : ε) : Queue ι ε :=
  { this with
      fContainer := this.fContainer ++ [(call, anyElement)]
      stored := this.stored ++ [(call, anyElement)] }

/-- The next step of `Put` or `Get`; no result where it has to wait. -/
def goAccess (this : Queue ι ε) (me : ι) (call : Nat) (op : Access ε)
    (tryLock interrupted : Bool) : AccessPc → Option (Queue ι ε × AccessPc)
  | .firstLock =>
    if this.fAlive then
      (this.lockReading me).map fun after => (after, .firstRead)
    else some (this, .returned .eBlocked)
  | .firstRead =>
    some (this.unlockReading me, if this.feBlocked.has op.side then .returned .eBlocked
      else if tryLock then .tryAcquire
      else .enterLock)
  | .tryAcquire =>
    if 0 < this.fSema op.side then
      some (this.acquireSema op.side, .secondLock)
    else some (this, .returned op.noSlot)
  | .enterLock =>
    (this.lockBlocking op.side me).map fun after => (after, .enterCount)
  | .enterCount =>
    some ((this.setBlockingCount op.side
      (this.fBlockingCount op.side + 1)).setBlockingLock op.side none,
      .acquire)
  | .acquire =>
    if !this.fAlive || interrupted then
      some (this, .leaveLock op.notAcquired)
    else if 0 < this.fSema op.side then
      some (this.acquireSema op.side, .aliveCheck)
    else none
  | .aliveCheck =>
    some (this, if this.fAlive then .secondLock else .giveBack)
  | .giveBack => some (this.releaseSema op.side, .leaveLock .eDead)
  | .secondLock =>
    if this.fAlive then
      (this.lockReading me).map fun after => (after, .secondRead)
    else some (this, leave tryLock .eBlocked)
  | .secondRead =>
    some (this.unlockReading me, if this.feBlocked.has op.side then leave tryLock .eBlocked
      else .queueLock)
  | .queueLock =>
    (this.lockQueue me).map fun after => (after, .container)
  | .container =>
    match op, this.fContainer with
    | .put anyElement, _ => some (this.pushBack call anyElement, .release)
    | .get, front :: rest =>
      some (this.popFront call front rest, .release)
    | .get, [] => some (this, .queueUnlock .eEmptyError)
  | .release =>
    some (this.releaseSema op.side.other, .queueUnlock .eSuccess)
  | .queueUnlock eRet => some (this.setQueueLock none, leave tryLock eRet)
  | .leaveLock eRet =>
    (this.lockBlocking op.side me).map fun after =>
      (after, .leaveSignal eRet)
  | .leaveSignal eRet =>
    some ((this.setBlockingCount op.side
      (this.fBlockingCount op.side - 1)).setBlockingCond op.side
        (this.fBlockingCond op.side).tail, .leaveUnlock eRet)
  | .leaveUnlock eRet =>
    some (this.setBlockingLock op.side none, .returned eRet)
  | .returned _ => none

/-- The next step of `EmptyQueue`. -/
def goEmpty (this : Queue ι ε) (me : ι) (call : Nat) : EmptyPc → Option (Queue ι ε × EmptyPc)
  | .lock =>
    if this.fAlive then
      (this.lockReading me).map fun after => (after, .read)
    else some (this, .returned)
  | .read =>
    some (this.unlockReading me, if this.isBlocked .eBothSides then .returned else .queueLock)
  | .queueLock =>
    (this.lockQueue me).map fun after =>
      (after, .acquire this.fContainer.length)
  | .acquire 0 => some (this, .queueUnlock)
  | .acquire (lSize + 1) =>
    if 0 < this.fSema .get then
      some (this.acquireSema .get, .move lSize true)
    else some (this, .move lSize false)
  | .move lSize _ =>
    match this.fContainer with
    | front :: rest => some (this.popFront call front rest, .release lSize)
    | [] => none
  | .release lSize => some (this.releaseSema .put, .acquire lSize)
  | .queueUnlock => some (this.setQueueLock none, .returned)
  | .returned => none

/-- The next step of `Block`. -/
def goBlock (this : Queue ι ε) (me : ι) (aSide : BlockingSide)
    (interrupted : Bool) : BlockPc → Option (Queue ι ε × BlockPc)
  | .lock =>
    if this.fAlive then
      (this.lockWriting me).map fun after => (after, .write)
    else some (this, .returned)
  | .write =>
    some (this.unlockWriting (this.feBlocked.union aSide), .queueLock)
  | .queueLock =>
    (this.lockQueue me).map fun after => (after, .enter aSide.toList)
  | .enter [] => some (this, .queueUnlock)
  | .enter (side :: sides) =>
    (this.lockBlocking side me).map fun after => (after, .loop side sides)
  | .loop side sides =>
    if this.fBlockingCount side = 0 then
      some (this.setBlockingLock side none, .enter sides)
    else some (this.releaseSema side, .wait side sides)
  | .wait side sides =>
    some ((this.setBlockingLock side none).setBlockingCond side
      (this.fBlockingCond side ++ [me]), .waiting side sides)
  | .waiting side sides =>
    if me ∉ this.fBlockingCond side || interrupted then
      (this.lockBlocking side me).map fun after =>
        (after.setBlockingCond side
          ((this.fBlockingCond side).filter fun other => other ≠ me),
          .loop side sides)
    else none
  | .queueUnlock => some (this.setQueueLock none, .returned)
  | .returned => none

/-- The next step of `UnBlock`. -/
def goUnBlock (this : Queue ι ε) (me : ι) (aSide : BlockingSide) :
    UnBlockPc → Option (Queue ι ε × UnBlockPc)
  | .lock =>
    if this.fAlive then
      (this.lockWriting me).map fun after => (after, .write)
    else some (this, .returned)
  | .write =>
    some (this.unlockWriting (this.feBlocked.without aSide), .returned)
  | .returned => none

end

end Queue

/-- A call of a client. -/
inductive QueueCall (ε : Type) where
  | access (op : Access ε) (bTryLock : Bool)
  | emptyQueue
  | block (aSide : BlockingSide)
  | unBlock (aSide : BlockingSide)
  deriving DecidableEq, Repr

/-- Where a client is. -/
inductive QueuePc (ε : Type) where
  | idle
  | access (op : Access ε) (bTryLock : Bool) (pc : AccessPc)
  | emptyQueue (pc : EmptyPc)
  | block (aSide : BlockingSide) (pc : BlockPc)
  | unBlock (aSide : BlockingSide) (pc : UnBlockPc)
  deriving DecidableEq, Repr

def QueueCall.begin {ε : Type} : QueueCall ε → QueuePc ε
  | .access op bTryLock => .access op bTryLock .firstLock
  | .emptyQueue => .emptyQueue .lock
  | .block aSide => .block aSide .lock
  | .unBlock aSide => .unBlock aSide .lock

/-- The queue and its clients; the calls are numbered as they begin, and what
they return is recorded. -/
structure QueueSystem (ι ε : Type) where
  queue : Queue ι ε
  clients : ι → QueuePc ε
  numbers : ι → Nat
  begun : List (QueueCall ε)
  returned : List (Nat × StatusCode)

inductive QueueMove (ι ε : Type) where
  | call (client : ι) (call : QueueCall ε)
  | go (client : ι) (interrupted : Bool)
  deriving DecidableEq, Repr

namespace QueueSystem

variable {ι ε : Type} [DecidableEq ι]

/-- The next step of a client in its call. -/
def goOn (queue : Queue ι ε) (me : ι) (number : Nat) (interrupted : Bool) :
    QueuePc ε → Option (Queue ι ε × QueuePc ε)
  | .idle => none
  | .access op bTryLock pc =>
    (queue.goAccess me number op bTryLock interrupted pc).map fun next =>
      (next.1, .access op bTryLock next.2)
  | .emptyQueue pc =>
    (queue.goEmpty me number pc).map fun next =>
      (next.1, .emptyQueue next.2)
  | .block aSide pc =>
    (queue.goBlock me aSide interrupted pc).map fun next =>
      (next.1, .block aSide next.2)
  | .unBlock aSide pc =>
    (queue.goUnBlock me aSide pc).map fun next =>
      (next.1, .unBlock aSide next.2)

def returns : QueuePc ε → Option (Option StatusCode)
  | .access _ _ (.returned eRet) => some (some eRet)
  | .emptyQueue .returned => some none
  | .block _ .returned => some none
  | .unBlock _ .returned => some none
  | _ => none

def moveTo (this : QueueSystem ι ε) (client : ι) (pc : QueuePc ε) : QueueSystem ι ε :=
  { this with clients := Function.update this.clients client pc }

/-- A client calls, goes on, or comes back from its call. -/
def step (this : QueueSystem ι ε) : QueueMove ι ε → Option (QueueSystem ι ε)
  | .call client call =>
    match this.clients client with
    | .idle =>
      some { this.moveTo client call.begin with
        numbers := Function.update this.numbers client this.begun.length
        begun := this.begun ++ [call] }
    | _ => none
  | .go client interrupted =>
    match returns (this.clients client) with
    | some (some eRet) =>
      some { this.moveTo client .idle with
        returned := this.returned ++ [(this.numbers client, eRet)] }
    | some none => some (this.moveTo client .idle)
    | none =>
      (goOn this.queue client (this.numbers client) interrupted
        (this.clients client)).map fun next =>
          { this.moveTo client next.2 with queue := next.1 }

/-- A new queue of capacity `lQueueSize`, which the semaphore of the empty
slots takes as an `unsigned`; a system has a largest count of a semaphore and
creates none with a larger one. -/
def new (semaMax lQueueSize : Nat) : Option (QueueSystem ι ε) :=
  if lQueueSize % 4294967296 ≤ semaMax then
    some {
      queue := {
        fAlive := true
        feBlocked := .eNone
        semaMax := semaMax
        fSema := fun
          | .put => lQueueSize % 4294967296
          | .get => 0
        fBlockingCount := fun _ => 0
        fBlockingLock := fun _ => none
        fBlockingCond := fun _ => []
        fQueueLock := none
        fBlockedLock := ⟨[], none⟩
        fContainer := []
        stored := []
        handed := [] }
      clients := fun _ => .idle
      numbers := fun _ => 0
      begun := []
      returned := [] }
  else none

end QueueSystem

end Coast
