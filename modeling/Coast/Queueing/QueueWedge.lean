import Coast.Queueing.QueueTokens

/-!
# Calls that wait for each other

`Block` waits, with the queue lock, for the callers of its side to leave.  A
caller that has passed its second check needs the queue lock to leave, and one
whose token another call has taken needs a new one.  In runs without these
steps, and without the loss of the last token, no set of calls waits for
itself.
-/

namespace Coast

open Ownership Runs List Nat Function

/-- What a client may have to wait for. -/
inductive Resource where
  | queueLock
  | blockedLock
  | blockingLock (side : QueueSide)
  | blockingCond (side : QueueSide)
  | sema (side : QueueSide)
  deriving DecidableEq, Repr

def AccessPc.counted : AccessPc → Bool
  | .acquire | .aliveCheck | .giveBack | .secondLock | .secondRead
  | .queueLock | .container | .release | .queueUnlock _ | .leaveLock _
  | .leaveSignal _ => true
  | _ => false

/-- The call has not come to its `Release`. -/
def AccessPc.beforeRelease : AccessPc → Bool
  | .queueUnlock _ | .leaveLock _ | .leaveSignal _ | .leaveUnlock _
  | .returned _ => false
  | _ => true

/-- The caller has got its token or given up, and leaves unless it passes its
second check. -/
def AccessPc.leaving : AccessPc → Bool
  | .aliveCheck | .giveBack | .secondLock | .secondRead | .leaveLock _
  | .leaveSignal _ => true
  | _ => false

def AccessPc.counts : AccessPc → Bool
  | .enterLock | .enterCount | .acquire | .aliveCheck | .giveBack
  | .leaveLock _ | .leaveSignal _ | .leaveUnlock _ => true
  | _ => false

def BlockPc.sides (aSide : BlockingSide) : BlockPc → List QueueSide
  | .lock | .write | .queueLock => aSide.toList
  | .enter sides => sides
  | .loop side sides | .wait side sides | .waiting side sides =>
    side :: sides
  | .queueUnlock | .returned => []

namespace Queue

variable {ι ε : Type} [DecidableEq ι]

/-- What a client waits for where it is. -/
def waitsFor (this : Queue ι ε) (me : ι) : QueuePc ε → Option Resource
  | .access _ _ .firstLock | .access _ _ .secondLock | .emptyQueue .lock =>
    if this.fAlive && this.fBlockedLock.writer.isSome then
      some .blockedLock
    else none
  | .block _ .lock | .unBlock _ .lock =>
    if this.fAlive && (this.fBlockedLock.writer.isSome ||
        !this.fBlockedLock.readers.isEmpty) then
      some .blockedLock
    else none
  | .access op _ .enterLock | .access op _ (.leaveLock _) =>
    if (this.fBlockingLock op.side).isSome then
      some (.blockingLock op.side)
    else none
  | .block _ (.enter (side :: _)) =>
    if (this.fBlockingLock side).isSome then some (.blockingLock side)
    else none
  | .block _ (.waiting side _) =>
    if me ∈ this.fBlockingCond side then some (.blockingCond side)
    else if (this.fBlockingLock side).isSome then
      some (.blockingLock side)
    else none
  | .access op _ .acquire =>
    if this.fAlive && this.fSema op.side = 0 then some (.sema op.side)
    else none
  | .access _ _ .queueLock | .emptyQueue .queueLock | .block _ .queueLock =>
    if this.fQueueLock.isSome then some .queueLock else none
  | _ => none

end Queue

/-- A call at this place may still release the semaphore of a side. -/
def QueuePc.mayRelease {ε : Type} (side : QueueSide) : QueuePc ε → Bool
  | .access op _ pc => op.side.other = side && pc.beforeRelease
  | .emptyQueue .queueUnlock | .emptyQueue .returned => false
  | .emptyQueue _ => side = .put
  | .block aSide pc => side ∈ pc.sides aSide
  | _ => false

def QueuePc.counted {ε : Type} (side : QueueSide) : QueuePc ε → Bool
  | .access op bTryLock pc => op.side = side && !bTryLock && pc.counted
  | _ => false

def QueuePc.leaving {ε : Type} (side : QueueSide) : QueuePc ε → Bool
  | .access op bTryLock pc => op.side = side && !bTryLock && pc.leaving
  | _ => false

namespace QueueSystem

open Queue

variable {ι ε : Type} [DecidableEq ι]

def MayRelease (this : QueueSystem ι ε) (c : ι) : Resource → Prop
  | .queueLock => this.queue.fQueueLock = some c
  | .blockedLock => this.queue.fBlockedLock.writer = some c ∨ c ∈ this.queue.fBlockedLock.readers
  | .blockingLock side => this.queue.fBlockingLock side = some c
  | .blockingCond side => (this.clients c).counted side = true
  | .sema side => (this.clients c).mayRelease side = true

/-- Each call of the set waits for what only another call of the set may
release. -/
structure Wedge (this : QueueSystem ι ε) (calls : ι → Prop) : Prop where
  nonempty : ∃ c, calls c
  waits : ∀ c, calls c → ∃ resource, this.queue.waitsFor c (this.clients c) = some resource ∧
    (∃ d, d ≠ c ∧ calls d ∧ this.MayRelease d resource) ∧
    ∀ d, this.MayRelease d resource → calls d

/-- The call is about to return without its token and without having given it
back. -/
def Drops (queue : Queue ι ε) : QueuePc ε → Prop
  | .access op _ .secondRead => queue.feBlocked.has op.side = true
  | .access .get _ .container => queue.fContainer = []
  | _ => False

/-- A `Block` of the side has the queue lock. -/
def BlocksQueue (this : QueueSystem ι ε) (side : QueueSide) : Prop :=
  ∃ b aSide pc, this.clients b = .block aSide pc ∧ aSide.has side = true ∧
    this.queue.fQueueLock = some b

def OtherToken (this : QueueSystem ι ε) (client : ι) : Prop :=
  (∃ side, 0 < this.queue.fSema side) ∨ ∃ d, d ≠ client ∧ 0 < (this.clients d).heldTokens

/-- A caller does not pass its second check, and a call that may not wait
takes no token, while a `Block` of the side has the queue lock; `Block` takes
that lock when no caller of its side is about to; and the last token is not
dropped. -/
structure Proceeds (this : QueueSystem ι ε) (client : ι) : Prop where
  passes : ∀ op, this.clients client = .access op false .secondRead →
    this.queue.feBlocked.has op.side = false → ¬ this.BlocksQueue op.side
  tries : ∀ op bTryLock,
    this.clients client = .access op bTryLock .tryAcquire → ¬ this.BlocksQueue op.side
  blocks : ∀ aSide, this.clients client = .block aSide .queueLock →
    ∀ d op, this.clients d = .access op false .queueLock → aSide.has op.side = false
  drops : Drops this.queue (this.clients client) → this.OtherToken client

def ProceedsMove (this : QueueSystem ι ε) : QueueMove ι ε → Prop
  | .call _ _ => True
  | .go client _ => this.Proceeds client

/-- A `Block` that waits for the callers of a side, or is about to. -/
def Awaits (queue : Queue ι ε) (clients : ι → QueuePc ε) (side : QueueSide) (b : ι) : Prop :=
  (∃ aSide sides, clients b = .block aSide (.wait side sides)) ∨ b ∈ queue.fBlockingCond side

/-- Whoever waits has somebody to wait for who can go on. -/
structure WedgeInv (queue : Queue ι ε) (clients : ι → QueuePc ε) : Prop where
  locks : Locks queue clients
  isAlive : queue.fAlive = true
  semaMax : 0 < queue.semaMax
  mode : ∀ c op pc, clients c = .access op true pc → pc.counts = false
  covers : ∀ b aSide pc, clients b = .block aSide pc →
    ∀ side ∈ pc.sides aSide, aSide.has side = true
  waiters : ∀ side, (queue.fBlockingCond side).Nodup
  token : (∃ side, 0 < queue.fSema side) ∨ ∃ d, 0 < (clients d).heldTokens
  /-- `Block` waits for a token that is free or for a caller that leaves. -/
  awaited : ∀ side b, Awaits queue clients side b →
    0 < queue.fSema side ∨ ∃ d, (clients d).leaving side = true
  /-- No caller waits for the lock of a `Block` of its side. -/
  apart : ∀ b aSide pc, clients b = .block aSide pc → queue.fQueueLock = some b →
      ∀ d op, clients d = .access op false .queueLock → aSide.has op.side = false

/-! ## What a call waits for -/

section

variable {queue : Queue ι ε} {me : ι} {pc : QueuePc ε} {side : QueueSide} {resource : Resource}

theorem waitsFor_of_reads (reads : pc.reads = true) : queue.waitsFor me pc = none := by
  cases pc with
  | access op bTryLock pc => cases pc <;> first | rfl | cases reads
  | emptyQueue pc => cases pc <;> first | rfl | cases reads
  | idle | block | unBlock => cases reads

theorem waitsFor_of_writes (writes : pc.writes = true) : queue.waitsFor me pc = none := by
  cases pc with
  | block aSide pc => cases pc <;> first | rfl | cases writes
  | unBlock aSide pc => cases pc <;> first | rfl | cases writes
  | idle | access | emptyQueue => cases writes

theorem waitsFor_of_holdsBlocking (holds : pc.holdsBlocking side = true) :
    queue.waitsFor me pc = none := by
  cases pc with
  | access op bTryLock pc =>
    have inside : pc.holdsBlocking = true := (Bool.and_eq_true_iff.mp holds).2
    cases pc <;> first | rfl | cases inside
  | block aSide pc => cases pc <;> first | rfl | cases holds
  | idle | emptyQueue | unBlock => cases holds

theorem waitsFor_of_holdsQueue (holds : pc.holdsQueue = true)
    (waits : queue.waitsFor me pc = some resource) :
    (∃ side, resource = .blockingLock side) ∨ ∃ side, resource = .blockingCond side := by
  cases pc with
  | access op bTryLock pc =>
    cases pc <;> first | cases waits | cases holds
  | emptyQueue pc => cases pc <;> first | cases waits | cases holds
  | block aSide pc =>
    cases pc with
    | enter sides =>
      cases sides with
      | nil => cases waits
      | cons side sides =>
        dsimp only [waitsFor] at waits
        split at waits <;> cases waits
        exact Or.inl ⟨side, rfl⟩
    | waiting side sides =>
      dsimp only [waitsFor] at waits
      split at waits
      · cases waits
        exact Or.inr ⟨side, rfl⟩
      · split at waits <;> cases waits
        exact Or.inl ⟨side, rfl⟩
    | lock | write | queueLock | returned => cases holds
    | loop | wait | queueUnlock => cases waits
  | idle | unBlock => cases holds

theorem waitsFor_of_leaving (leaving : pc.leaving side = true)
    (waits : queue.waitsFor me pc = some resource) :
    resource = .blockedLock ∨ resource = .blockingLock side := by
  cases pc with
  | access op bTryLock pc =>
    dsimp only [QueuePc.leaving] at leaving
    rw [Bool.and_eq_true_iff, Bool.and_eq_true_iff] at leaving
    rcases leaving with ⟨⟨sameSide, _⟩, inside⟩
    cases of_decide_eq_true sameSide
    cases pc with
    | secondLock =>
      dsimp only [waitsFor] at waits
      split at waits <;> cases waits
      exact Or.inl rfl
    | leaveLock eRet =>
      dsimp only [waitsFor] at waits
      split at waits <;> cases waits
      exact Or.inr rfl
    | aliveCheck | giveBack | secondRead | leaveSignal => cases waits
    | firstLock | firstRead | tryAcquire | enterLock | enterCount
    | acquire | queueLock | container | release | queueUnlock
    | leaveUnlock | returned => cases inside
  | idle | emptyQueue | block | unBlock => cases leaving

theorem counted_of_leaving (leaving : pc.leaving side = true) : pc.counted side = true := by
  cases pc with
  | access op bTryLock pc =>
    dsimp only [QueuePc.leaving] at leaving
    rw [Bool.and_eq_true_iff] at leaving
    dsimp only [QueuePc.counted]
    rw [leaving.1, Bool.true_and]
    cases pc <;> first | rfl | cases leaving.2
  | idle | emptyQueue | block | unBlock => cases leaving

theorem waitsFor_of_counted (counted : pc.counted side = true)
    (waits : queue.waitsFor me pc = some resource) :
    pc.leaving side = true ∨ queue.fSema side = 0 ∨
      ∃ op, op.side = side ∧ pc = .access op false .queueLock := by
  cases pc with
  | access op bTryLock pc =>
    dsimp only [QueuePc.counted] at counted
    rw [Bool.and_eq_true_iff] at counted
    rcases counted with ⟨both, inside⟩
    cases pc with
    | acquire =>
      dsimp only [waitsFor] at waits
      split at waits <;> cases waits
      rename_i noToken
      rw [Bool.and_eq_true_iff] at noToken both
      cases of_decide_eq_true both.1
      exact Or.inr (Or.inl (of_decide_eq_true noToken.2))
    | queueLock =>
      rw [Bool.and_eq_true_iff] at both
      cases bTryLock with
      | true => cases both.2
      | false =>
        exact Or.inr (Or.inr ⟨op, of_decide_eq_true both.1, rfl⟩)
    | aliveCheck | giveBack | secondLock | secondRead | leaveLock
    | leaveSignal =>
      left
      dsimp only [QueuePc.leaving]
      rw [both]
      rfl
    | container | release | queueUnlock => cases waits
    | firstLock | firstRead | tryAcquire | enterLock | enterCount
    | leaveUnlock | returned => cases inside
  | idle | emptyQueue | block | unBlock => cases counted

theorem waitsFor_sema (waits : queue.waitsFor me pc = some (.sema side)) :
    ∃ op bTryLock, pc = .access op bTryLock .acquire ∧ op.side = side ∧ queue.fSema side = 0 := by
  unfold waitsFor at waits
  split at waits <;> first
    | (split at waits <;> cases waits)
    | (split at waits <;> first | cases waits | (split at waits <;> cases waits))
    | cases waits
  rename_i both
  rw [Bool.and_eq_true_iff] at both
  exact ⟨_, _, rfl, rfl, of_decide_eq_true both.2⟩

theorem waitsFor_cond (waits : queue.waitsFor me pc = some (.blockingCond side)) :
    ∃ aSide sides, pc = .block aSide (.waiting side sides) ∧ me ∈ queue.fBlockingCond side := by
  unfold waitsFor at waits
  split at waits <;> first
    | (split at waits <;> cases waits)
    | cases waits
    | skip
  split at waits
  · cases waits
    exact ⟨_, _, rfl, by assumption⟩
  · split at waits <;> cases waits

end

section

variable {this : QueueSystem ι ε} {calls : ι → Prop}

variable {c : ι}

section

variable (wedge : Wedge this calls)
include wedge

variable (inv : WedgeInv this.queue this.clients)
include inv

theorem Wedge.not_blockedLock (member : calls c) :
    this.queue.waitsFor c (this.clients c) ≠ some .blockedLock := by
  intro waits
  rcases wedge.waits c member with ⟨resource, alsoWaits, ⟨d, _, inside, releases⟩, _⟩
  rw [waits] at alsoWaits
  cases alsoWaits
  rcases wedge.waits d inside with ⟨other, waitsToo, _⟩
  rcases releases with writer | reader
  · rw [waitsFor_of_writes ((inv.locks.writer d).mp writer)] at waitsToo
    cases waitsToo
  · rw [waitsFor_of_reads ((inv.locks.readers.mem d).mp reader)] at waitsToo
    cases waitsToo

theorem Wedge.not_blockingLock
 (member : calls c) (side : QueueSide) :
    this.queue.waitsFor c (this.clients c) ≠ some (.blockingLock side) := by
  intro waits
  rcases wedge.waits c member with ⟨resource, alsoWaits, ⟨d, _, inside, releases⟩, _⟩
  rw [waits] at alsoWaits
  cases alsoWaits
  rcases wedge.waits d inside with ⟨other, waitsToo, _⟩
  have holds := ((inv.locks.blockingLock side) d).mp releases
  rw [waitsFor_of_holdsBlocking holds] at waitsToo
  cases waitsToo

theorem Wedge.not_leaving (member : calls c)
    {side : QueueSide} : (this.clients c).leaving side ≠ true := by
  intro leaving
  rcases wedge.waits c member with ⟨resource, waits, _⟩
  rcases waitsFor_of_leaving leaving waits with same | same
  · rw [same] at waits
    exact wedge.not_blockedLock inv member waits
  · rw [same] at waits
    exact wedge.not_blockingLock inv member side waits

theorem Wedge.not_blockingCond
 (member : calls c) (side : QueueSide) :
    this.queue.waitsFor c (this.clients c) ≠ some (.blockingCond side) := by
  intro waits
  rcases wedge.waits c member with ⟨resource, alsoWaits, ⟨d, _, inside, releases⟩, only⟩
  rw [waits] at alsoWaits
  cases alsoWaits
  rcases waitsFor_cond waits with ⟨aSide, sides, place, waiting⟩
  rcases inv.awaited side c (Or.inr waiting) with slot | ⟨e, leaving⟩
  · rcases wedge.waits d inside with ⟨other, waitsToo, _⟩
    rcases waitsFor_of_counted releases waitsToo with leaving | noSlot | ⟨op, isSide, atLock⟩
    · exact wedge.not_leaving inv inside leaving
    · rw [noSlot] at slot
      exact absurd slot (lt_irrefl 0)
    · have holds : (this.clients c).holdsQueue = true := by
        rw [place]
        rfl
      have apart := inv.apart c aSide _ place ((inv.locks.queueLock c).mpr holds) d op atLock
      have covered := inv.covers c aSide _ place side mem_cons_self
      rw [isSide, covered] at apart
      cases apart
  · exact wedge.not_leaving inv (only e (counted_of_leaving leaving)) leaving

theorem Wedge.not_queueLock (member : calls c) :
    this.queue.waitsFor c (this.clients c) ≠ some .queueLock := by
  intro waits
  rcases wedge.waits c member with ⟨resource, alsoWaits, ⟨d, _, inside, releases⟩, _⟩
  rw [waits] at alsoWaits
  cases alsoWaits
  rcases wedge.waits d inside with ⟨other, waitsToo, _⟩
  have holds := (inv.locks.queueLock d).mp releases
  rcases waitsFor_of_holdsQueue holds waitsToo with ⟨side, same⟩ | ⟨side, same⟩
  · rw [same] at waitsToo
    exact wedge.not_blockingLock inv inside side waitsToo
  · rw [same] at waitsToo
    exact wedge.not_blockingCond inv inside side waitsToo

theorem Wedge.sema (member : calls c) :
    ∃ side op bTryLock, this.clients c = .access op bTryLock .acquire ∧
      op.side = side ∧ this.queue.fSema side = 0 ∧
      (∃ d, calls d ∧ (this.clients d).mayRelease side = true) ∧
      ∀ d, (this.clients d).mayRelease side = true → calls d := by
  rcases wedge.waits c member with ⟨resource, waits, ⟨d, _, inside, releases⟩, only⟩
  cases resource with
  | queueLock => exact absurd waits (wedge.not_queueLock inv member)
  | blockedLock => exact absurd waits (wedge.not_blockedLock inv member)
  | blockingLock side =>
    exact absurd waits (wedge.not_blockingLock inv member side)
  | blockingCond side =>
    exact absurd waits (wedge.not_blockingCond inv member side)
  | sema side =>
    rcases waitsFor_sema waits with ⟨op, bTryLock, place, isSide, empty⟩
    exact ⟨side, op, bTryLock, place, isSide, empty, ⟨d, inside, releases⟩, only⟩

end

omit [DecidableEq ι] in
theorem mayRelease_of_token {pc : QueuePc ε} (token : 0 < pc.heldTokens) :
    ∃ side, pc.mayRelease side = true := by
  cases pc with
  | access op bTryLock pc =>
    refine ⟨op.side.other, ?_⟩
    cases pc <;> first
      | exact Bool.and_eq_true_iff.mpr ⟨decide_eq_true rfl, rfl⟩
      | (cases op <;> exact absurd token (lt_irrefl 0))
  | emptyQueue pc =>
    refine ⟨.put, ?_⟩
    cases pc <;> first
      | rfl
      | exact absurd token (lt_irrefl 0)
  | idle | block | unBlock => exact absurd token (lt_irrefl 0)

theorem WedgeInv.no_wedge (inv : WedgeInv this.queue this.clients)
    (calls : ι → Prop) : ¬ Wedge this calls := by
  intro wedge
  rcases wedge.nonempty with ⟨c, member⟩
  rcases wedge.sema inv member with
    ⟨side, op, bTryLock, place, isSide, empty, ⟨d, inside, releases⟩, only⟩
  rcases wedge.sema inv inside with ⟨other, op', bTryLock', place', isSide', empty', _, only'⟩
  have isOther : other.other = side := by
    rw [place'] at releases
    have same := (Bool.and_eq_true_iff.mp releases).1
    rw [← isSide']
    exact of_decide_eq_true same
  have empties : ∀ any, this.queue.fSema any = 0 := by
    intro any
    cases any <;> cases other <;> cases isOther <;> first | exact empty | exact empty'
  have inSet : ∀ any e, (this.clients e).mayRelease any = true → calls e := by
    intro any
    cases any <;> cases other <;> cases isOther <;> first | exact only | exact only'
  rcases inv.token with ⟨any, slot⟩ | ⟨e, token⟩
  · rw [empties any] at slot
    exact absurd slot (lt_irrefl 0)
  · rcases mayRelease_of_token token with ⟨any, mayRelease⟩
    rcases wedge.sema inv (inSet any e mayRelease) with ⟨_, op'', _, place'', _⟩
    rw [place''] at token
    cases op'' <;> exact absurd token (lt_irrefl 0)

end

section

variable {queue after : Queue ι ε} {me : ι} {number : Nat} {pc next : QueuePc ε}

omit [DecidableEq ι] in
theorem releaseSema_pos (semaMax : 0 < queue.semaMax) (side : QueueSide) :
    0 < (queue.releaseSema side).fSema side := by
  dsimp only [releaseSema]
  rw [update_self]
  split
  · exact succ_pos _
  · rename_i atMax
    exact lt_of_lt_of_le semaMax (Nat.le_of_not_lt atMax)

theorem AccessStep.mode {op : Access ε} {tryLock : Bool}
    {pc next : AccessPc} (was : tryLock = true → pc.counts = false)
    (steps : AccessStep queue me number op tryLock pc after next) :
    tryLock = true → next.counts = false := by
  intro mode
  cases steps with
  | enters open' waits =>
    rw [mode] at waits
    cases waits
  | secondDead | drops | queueUnlock =>
    rw [mode]
    rfl
  | enterLock | enterCount | notAcquired | acquire | died | giveBack
  | leaveLock | leaveSignal => exact absurd (was mode) nofun
  | alive | firstLock | refused | tries | tryAcquire | noSlot | secondLock
  | passes | queueLock | pushes | pops | finds | release | leaveUnlock
  | dead => rfl

theorem BlockStep.sides {aSide : BlockingSide} {pc next : BlockPc}
    (steps : BlockStep queue me aSide pc after next) :
    ∀ side ∈ next.sides aSide, side ∈ pc.sides aSide := by
  cases steps with
  | dead => exact fun _ left => absurd left not_mem_nil
  | none' side sides => exact fun _ left => mem_cons_of_mem side left
  | _ => exact fun _ left => left

variable (goes : GoStep queue me number pc after next)
include goes

theorem GoStep.nodup {side : QueueSide} (nodup : (queue.fBlockingCond side).Nodup)
    (mine : me ∈ queue.fBlockingCond side → pc.waitsAt side = true) :
    (after.fBlockingCond side).Nodup := by
  cases goes with
  | access steps =>
    cases steps with
    | leaveSignal eRet =>
      dsimp only [setBlockingCond]
      rw [update_apply]
      split
      · rename_i same
        rw [← same]
        exact nodup.tail
      · exact nodup
    | _ => exact nodup
  | emptyQueue steps => cases steps <;> exact nodup
  | block steps =>
    cases steps with
    | wait at' sides =>
      dsimp only [setBlockingCond, setBlockingLock]
      rw [update_apply]
      split
      · rename_i same
        rw [← same]
        apply nodup_append.mpr
        refine ⟨nodup, nodup_singleton me, ?_⟩
        intro other waits new' isNew equal
        rw [equal, mem_singleton.mp isNew] at waits
        cases mine waits
      · exact nodup
    | wakes at' sides free =>
      dsimp only [setBlockingCond, setBlockingLock]
      rw [update_apply]
      split
      · rename_i same
        rw [← same]
        exact nodup.filter _
      · exact nodup
    | _ => exact nodup
  | unBlock steps => cases steps <;> exact nodup

theorem GoStep.token
    (isAlive : queue.fAlive = true) (semaMax : 0 < queue.semaMax) (keeps : ¬ Drops queue pc) :
    (after.fSema = queue.fSema ∧ (0 < pc.heldTokens → 0 < next.heldTokens)) ∨
      0 < next.heldTokens ∨ ∃ side, 0 < after.fSema side := by
  cases goes with
  | @access op bTryLock _ _ _ steps =>
    cases steps with
    | tryAcquire | acquire =>
      exact Or.inr (Or.inl (by cases op <;> exact zero_lt_one))
    | giveBack | release =>
      exact Or.inr (Or.inr ⟨_, releaseSema_pos semaMax _⟩)
    | secondDead notAlive =>
      rw [isAlive] at notAlive
      cases notAlive
    | drops blocked => exact absurd blocked keeps
    | pushes anyElement puts =>
      cases puts
      exact Or.inr (Or.inl zero_lt_one)
    | pops gets =>
      cases gets
      exact Or.inr (Or.inl zero_lt_one)
    | finds gets empty =>
      cases gets
      exact absurd empty keeps
    | queueUnlock eRet =>
      refine Or.inl ⟨rfl, fun token => absurd token ?_⟩
      cases op <;> exact lt_irrefl 0
    | _ => exact Or.inl ⟨rfl, id⟩
  | emptyQueue steps =>
    cases steps with
    | acquire | move => exact Or.inr (Or.inl zero_lt_one)
    | release => exact Or.inr (Or.inr ⟨_, releaseSema_pos semaMax _⟩)
    | _ => exact Or.inl ⟨rfl, id⟩
  | block steps =>
    cases steps with
    | release => exact Or.inr (Or.inr ⟨_, releaseSema_pos semaMax _⟩)
    | _ => exact Or.inl ⟨rfl, id⟩
  | unBlock steps => cases steps <;> exact Or.inl ⟨rfl, id⟩

theorem GoStep.drops (drops : Drops queue pc) : after.fSema = queue.fSema := by
  cases goes with
  | access steps =>
    cases steps <;> first | rfl | exact absurd drops id
  | emptyQueue | block | unBlock => exact absurd drops id

theorem GoStep.slot {side : QueueSide} (semaMax : 0 < queue.semaMax)
    (mode : ∀ op at', pc = .access op true at' → at'.counts = false)
    (tries : ∀ op bTryLock, pc = .access op bTryLock .tryAcquire → op.side ≠ side)
    (empties : ∀ lSize, pc ≠ .emptyQueue (.acquire lSize)) (slot : 0 < queue.fSema side) :
    0 < after.fSema side ∨ next.leaving side = true := by
  have released : ∀ at', 0 < (queue.releaseSema at').fSema side := by
    intro at'
    by_cases same : at' = side
    · rw [same]
      exact releaseSema_pos semaMax side
    · dsimp only [releaseSema]
      rw [update_of_ne (Ne.symm same)]
      exact slot
  cases goes with
  | @access op bTryLock _ _ _ steps =>
    cases steps with
    | tryAcquire =>
      left
      dsimp only [acquireSema]
      rw [update_of_ne (Ne.symm (tries op bTryLock rfl))]
      exact slot
    | acquire =>
      by_cases same : op.side = side
      · right
        cases bTryLock with
        | true => cases mode op _ rfl
        | false =>
          dsimp only [QueuePc.leaving]
          rw [same, decide_eq_true rfl]
          rfl
      · left
        dsimp only [acquireSema]
        rw [update_of_ne (Ne.symm same)]
        exact slot
    | giveBack | release => exact Or.inl (released _)
    | _ => exact Or.inl slot
  | emptyQueue steps =>
    cases steps with
    | acquire lSize => exact absurd rfl (empties (lSize + 1))
    | release => exact Or.inl (released _)
    | _ => exact Or.inl slot
  | block steps =>
    cases steps with
    | release => exact Or.inl (released _)
    | _ => exact Or.inl slot
  | unBlock steps => cases steps <;> exact Or.inl slot

theorem GoStep.leaving {side : QueueSide} (before : pc.leaving side = true) :
    next.leaving side = true ∨ (∃ op, op.side = side ∧ pc = .access op false .secondRead ∧
        queue.feBlocked.has op.side = false) ∨
      ∃ op eRet, op.side = side ∧ pc = .access op false (.leaveSignal eRet) ∧
        after.fBlockingCond side = (queue.fBlockingCond side).tail := by
  cases goes with
  | @access op bTryLock _ _ _ steps =>
    dsimp only [QueuePc.leaving] at before
    rw [Bool.and_eq_true_iff, Bool.and_eq_true_iff] at before
    rcases before with ⟨⟨sameSide, mode⟩, inside⟩
    have isSide := of_decide_eq_true sameSide
    cases bTryLock with
    | true => cases mode
    | false =>
      have goesOn : ∀ next : AccessPc, next.leaving = true →
          (QueuePc.access op false next).leaving side = true := by
        intro next leaves
        dsimp only [QueuePc.leaving]
        rw [sameSide, leaves]
        rfl
      cases steps with
      | passes open' => exact Or.inr (Or.inl ⟨op, isSide, rfl, open'⟩)
      | leaveSignal eRet =>
        refine Or.inr (Or.inr ⟨op, eRet, isSide, rfl, ?_⟩)
        dsimp only [setBlockingCond]
        rw [isSide, update_self]
      | alive | died | giveBack | secondDead | secondLock | drops
      | leaveLock => exact Or.inl (goesOn _ rfl)
      | dead | firstLock | refused | tries | enters | tryAcquire
      | noSlot | enterLock | enterCount | notAcquired | acquire
      | queueLock | pushes | pops | finds | release | queueUnlock
      | leaveUnlock => cases inside
  | emptyQueue | block | unBlock => cases before

theorem GoStep.toQueueLock
    {op : Access ε} {bTryLock : Bool} (place : next = .access op bTryLock .queueLock) :
    pc = .access op bTryLock .secondRead ∧ queue.feBlocked.has op.side = false := by
  cases goes with
  | @access _ tryLock _ _ _ steps =>
    cases steps with
    | passes open' =>
      cases place
      exact ⟨rfl, open'⟩
    | firstLock | refused | tries | enters | tryAcquire | noSlot
    | enterLock | enterCount | notAcquired | acquire | alive | died
    | giveBack | secondLock | queueLock | pushes | pops | finds | release
    | leaveLock | leaveSignal | leaveUnlock | dead => cases place
    | secondDead | drops | queueUnlock =>
      cases tryLock <;> cases place
  | emptyQueue | block | unBlock => cases place

theorem GoStep.holder {b : ι} (different : b ≠ me) (held : after.fQueueLock = some b) :
    queue.fQueueLock = some b := by
  have steps := goes.queueLock
  generalize pc.holdsQueue = before at steps
  generalize next.holdsQueue = then' at steps
  rw [held] at steps
  generalize same : queue.fQueueLock = lock at steps
  cases steps with
  | keep => rfl
  | take => exact absurd rfl different

theorem GoStep.blockHolds {aSide : BlockingSide} {at' : BlockPc} (place : next = .block aSide at')
    (held : after.fQueueLock = some me) :
    pc = .block aSide .queueLock ∨ ∃ was, pc = .block aSide was ∧ queue.fQueueLock = some me := by
  cases goes with
  | block steps =>
    cases place
    cases steps with
    | queueLock => exact Or.inl rfl
    | queueUnlock => cases held
    | _ => exact Or.inr ⟨_, rfl, held⟩
  | access | emptyQueue | unBlock => cases place

end

section

variable {this : QueueSystem ι ε} {client : ι} {queue : Queue ι ε} {next : QueuePc ε}

variable {side : QueueSide}

variable (inv : WedgeInv this.queue this.clients)
include inv

omit [DecidableEq ι] in
theorem WedgeInv.awaits {b : ι} (awaits : Awaits this.queue this.clients side b) :
    this.queue.fQueueLock = some b ∧ ∃ aSide pc,
      this.clients b = .block aSide pc ∧ aSide.has side = true := by
  rcases awaits with ⟨aSide, sides, place⟩ | waits
  · have holds : (this.clients b).holdsQueue = true := by
      rw [place]
      rfl
    exact ⟨(inv.locks.queueLock b).mpr holds, aSide, _, place,
      inv.covers b aSide _ place side mem_cons_self⟩
  · have waitsAt := inv.locks.waiters side b waits
    cases place : this.clients b with
    | block aSide pc =>
      rw [place] at waitsAt
      cases pc with
      | waiting at' sides =>
        cases of_decide_eq_true waitsAt
        have holds : (this.clients b).holdsQueue = true := by
          rw [place]
          rfl
        exact ⟨(inv.locks.queueLock b).mpr holds, aSide, _, rfl,
          inv.covers b aSide _ place _ mem_cons_self⟩
      | _ => cases waitsAt
    | idle | access | emptyQueue | unBlock =>
      rw [place] at waitsAt
      cases waitsAt

omit [DecidableEq ι] in
theorem WedgeInv.blocksQueue {side : QueueSide} {b : ι}
    (awaits : Awaits this.queue this.clients side b) :
    this.BlocksQueue side := by
  rcases inv.awaits awaits with ⟨held, aSide, pc, place, has⟩
  exact ⟨b, aSide, pc, place, has, held⟩

theorem WedgeInv.awaitsBefore
    (goes : GoStep this.queue client (this.numbers client) (this.clients client) queue next) {b : ι}
    (awaits : Awaits queue (Function.update this.clients client next)
      side b) :
    Awaits this.queue this.clients side b ∨ 0 < queue.fSema side := by
  rcases awaits with ⟨aSide, sides, place⟩ | waits
  · by_cases same : b = client
    · right
      rw [same, update_self] at place
      rw [place] at goes
      generalize this.clients client = pc at goes
      cases goes with
      | block steps =>
        cases steps with
        | release => exact releaseSema_pos inv.semaMax side
    · rw [update_of_ne same] at place
      exact Or.inl (Or.inl ⟨aSide, sides, place⟩)
  · left
    rcases goes.waiters (inv.locks.waiters side client) waits with ⟨was, _⟩ | ⟨same, waitsAt⟩
    · exact Or.inr was
    · left
      rw [same]
      generalize this.clients client = pc at goes
      cases goes with
      | block steps =>
        cases steps with
        | wait at' sides =>
          cases of_decide_eq_true waitsAt
          exact ⟨_, _, rfl⟩
        | _ => cases waitsAt
      | access | emptyQueue | unBlock => cases waitsAt

theorem WedgeInv.not_signalled
    (goes : GoStep this.queue client (this.numbers client) (this.clients client) queue next) {b : ι}
    (awaits : Awaits queue (Function.update this.clients client next) side b)
    {op : Access ε} {eRet : StatusCode} (isSide : op.side = side)
    (place : this.clients client = .access op false (.leaveSignal eRet))
    (tail : queue.fBlockingCond side = (this.queue.fBlockingCond side).tail) : False := by
  rcases awaits with ⟨aSide, sides, wait⟩ | waits
  · have different : b ≠ client := by
      intro same
      rw [same, update_self] at wait
      rw [wait, place] at goes
      cases goes
    rw [update_of_ne different] at wait
    have mine : (this.clients client).holdsBlocking side = true := by
      rw [place]
      exact Bool.and_eq_true_iff.mpr ⟨decide_eq_true isSide, rfl⟩
    have theirs : (this.clients b).holdsBlocking side = true := by
      rw [wait]
      exact decide_eq_true rfl
    exact different ((inv.locks.blockingLock side).unique theirs mine)
  · rw [tail] at waits
    have nodup := inv.waiters side
    cases queued : this.queue.fBlockingCond side with
    | nil =>
      rw [queued] at waits
      cases waits
    | cons first others =>
      rw [queued] at waits nodup
      have firstWaits : first ∈ this.queue.fBlockingCond side := by
        rw [queued]
        exact mem_cons_self
      have alsoWaits : b ∈ this.queue.fBlockingCond side := by
        rw [queued]
        exact mem_cons_of_mem first waits
      have held := (inv.awaits (Or.inr firstWaits)).1
      rw [(inv.awaits (Or.inr alsoWaits)).1] at held
      cases held
      exact (nodup_cons.mp nodup).1 waits

section

variable (proceeds : this.Proceeds client)
include proceeds

theorem WedgeInv.stillAwaited
 (goes : GoStep this.queue client (this.numbers client)
    (this.clients client) queue next) {b : ι}
    (awaits : Awaits queue (Function.update this.clients client next)
      side b) :
    0 < queue.fSema side ∨
      ∃ d, (Function.update this.clients client next d).leaving side = true := by
  rcases inv.awaitsBefore goes awaits with before | slot
  · have holds := inv.awaits before
    rcases inv.awaited side b before with slot | ⟨d, leaving⟩
    · have kept : 0 < queue.fSema side ∨ next.leaving side = true := by
        apply goes.slot inv.semaMax (inv.mode client) _ _ slot
        · intro op bTryLock place isSide
          apply proceeds.tries op bTryLock place
          rw [isSide]
          exact inv.blocksQueue before
        · intro lSize place
          have isEmpty : (this.clients client).holdsQueue = true := by
            rw [place]
            rfl
          have held := (inv.locks.queueLock client).mpr isEmpty
          rcases holds with ⟨other, aSide, pc, isBlock, _⟩
          rw [held] at other
          cases other
          rw [place] at isBlock
          cases isBlock
      rcases kept with slot | leaves
      · exact Or.inl slot
      · right
        refine ⟨client, ?_⟩
        rw [update_self]
        exact leaves
    · right
      by_cases same : d = client
      · rw [same] at leaving
        rcases goes.leaving leaving with leaves | ⟨op, isSide, place, open'⟩ |
          ⟨op, eRet, isSide, place, tail⟩
        · refine ⟨client, ?_⟩
          rw [update_self]
          exact leaves
        · exfalso
          apply proceeds.passes op place open'
          rw [isSide]
          exact inv.blocksQueue before
        · exfalso
          exact inv.not_signalled goes awaits isSide place tail
      · refine ⟨d, ?_⟩
        rw [update_of_ne same]
        exact leaving
  · exact Or.inl slot

theorem WedgeInv.stillToken
    (goes : GoStep this.queue client (this.numbers client)
      (this.clients client) queue next) :
    (∃ side, 0 < queue.fSema side) ∨
      ∃ d, 0 < (Function.update this.clients client next d).heldTokens := by
  have others : ∀ d, d ≠ client → 0 < (this.clients d).heldTokens →
      ∃ d, 0 < (Function.update this.clients client next d).heldTokens := by
    intro d different token
    refine ⟨d, ?_⟩
    rw [update_of_ne different]
    exact token
  have mine : 0 < next.heldTokens →
      ∃ d, 0 < (Function.update this.clients client next d).heldTokens := by
    intro token
    refine ⟨client, ?_⟩
    rw [update_self]
    exact token
  by_cases drops : Drops this.queue (this.clients client)
  · rw [goes.drops drops]
    rcases proceeds.drops drops with slot | ⟨d, different, token⟩
    · exact Or.inl slot
    · exact Or.inr (others d different token)
  · rcases goes.token inv.isAlive inv.semaMax drops with ⟨sema, holds⟩ | token | slot
    · rw [sema]
      rcases inv.token with slot | ⟨d, token⟩
      · exact Or.inl slot
      · by_cases same : d = client
        · rw [same] at token
          exact Or.inr (mine (holds token))
        · exact Or.inr (others d same token)
    · exact Or.inr (mine token)
    · exact Or.inl slot

theorem WedgeInv.stillApart
    (goes : GoStep this.queue client (this.numbers client)
      (this.clients client) queue next) {b d : ι} {aSide : BlockingSide}
    {pc : BlockPc} {op : Access ε}
    (block : Function.update this.clients client next b = .block aSide pc)
    (held : queue.fQueueLock = some b)
    (place : Function.update this.clients client next d =
      .access op false .queueLock) : aSide.has op.side = false := by
  by_cases isClient : b = client
  · rw [isClient, update_self] at block
    rw [isClient] at held
    have different : d ≠ client := by
      intro same
      rw [same, update_self, block] at place
      cases place
    rw [update_of_ne different] at place
    rcases goes.blockHolds block held with was | ⟨before, was, had⟩
    · exact proceeds.blocks aSide was d op place
    · exact inv.apart client aSide before was had d op place
  · rw [update_of_ne isClient] at block
    have had := goes.holder isClient held
    by_cases same : d = client
    · rw [same, update_self] at place
      rcases goes.toQueueLock place with ⟨was, open'⟩
      by_contra has
      exact proceeds.passes op was open' ⟨b, aSide, pc, block,
        Bool.eq_true_of_not_eq_false has, had⟩
    · rw [update_of_ne same] at place
      exact inv.apart b aSide pc block had d op place

theorem WedgeInv.go
    (goes : GoStep this.queue client (this.numbers client)
      (this.clients client) queue next) :
    WedgeInv queue (Function.update this.clients client next) where
  locks := inv.locks.go goes
  isAlive := goes.constant.1.trans inv.isAlive
  semaMax := inv.semaMax.trans_eq goes.constant.2.symm
  mode := by
    intro c op pc place
    by_cases same : c = client
    · rw [same, update_self] at place
      have before := inv.mode client
      generalize this.clients client = was at goes before
      cases goes with
      | access steps =>
        cases place
        exact AccessStep.mode (fun _ => before op _ rfl) steps rfl
      | emptyQueue | block | unBlock => cases place
    · rw [update_of_ne same] at place
      exact inv.mode c op pc place
  covers := by
    intro b aSide pc place side left
    by_cases same : b = client
    · rw [same, update_self] at place
      have before := inv.covers client
      generalize this.clients client = was at goes before
      cases goes with
      | block steps =>
        cases place
        exact before aSide _ rfl side (BlockStep.sides steps side left)
      | access | emptyQueue | unBlock => cases place
    · rw [update_of_ne same] at place
      exact inv.covers b aSide pc place side left
  waiters := fun side =>
    goes.nodup (inv.waiters side) (inv.locks.waiters side client)
  token := inv.stillToken proceeds goes
  awaited := fun _ _ awaits => inv.stillAwaited proceeds goes awaits
  apart := fun _ _ _ block held _ _ place =>
    inv.stillApart proceeds goes block held place

end

theorem WedgeInv.calm (before : Calm (this.clients client)) (then' : Calm next)
    (quiet : ∀ side, (this.clients client).leaving side = false)
    (empty : (this.clients client).heldTokens = 0)
    (mode : ∀ op pc, next = .access op true pc → pc.counts = false)
    (covers : ∀ aSide pc, next = .block aSide pc → ∀ side ∈ pc.sides aSide, aSide.has side = true)
    (notAtLock : ∀ op, next ≠ .access op false .queueLock) :
    WedgeInv this.queue (Function.update this.clients client next) where
  locks := inv.locks.calm before then'
  isAlive := inv.isAlive
  semaMax := inv.semaMax
  mode := by
    intro c op pc place
    rw [update_apply] at place
    split at place
    · exact mode op pc place
    · exact inv.mode c op pc place
  covers := by
    intro b aSide pc place
    rw [update_apply] at place
    split at place
    · exact covers aSide pc place
    · exact inv.covers b aSide pc place
  waiters := inv.waiters
  token := by
    rcases inv.token with slot | ⟨d, token⟩
    · exact Or.inl slot
    · refine Or.inr ⟨d, ?_⟩
      have different : d ≠ client := by
        intro same
        rw [same, empty] at token
        exact absurd token (lt_irrefl 0)
      rw [update_of_ne different]
      exact token
  awaited := by
    intro side b awaits
    have was : Awaits this.queue this.clients side b := by
      rcases awaits with ⟨aSide, sides, place⟩ | waits
      · rw [update_apply] at place
        split at place
        · have holds := then'.queueLock
          rw [place] at holds
          cases holds
        · exact Or.inl ⟨aSide, sides, place⟩
      · exact Or.inr waits
    rcases inv.awaited side b was with slot | ⟨d, leaving⟩
    · exact Or.inl slot
    · refine Or.inr ⟨d, ?_⟩
      have different : d ≠ client := by
        intro same
        rw [same, quiet side] at leaving
        cases leaving
      rw [update_of_ne different]
      exact leaving
  apart := by
    intro b aSide pc block held d op place
    have different : b ≠ client := by
      intro same
      rw [same] at held
      have holds := (inv.locks.queueLock client).mp held
      dsimp only at holds
      rw [before.queueLock] at holds
      cases holds
    rw [update_of_ne different] at block
    rw [update_apply] at place
    split at place
    · exact absurd place (notAtLock op)
    · exact inv.apart b aSide pc block held d op place

end

section

variable {this after : QueueSystem ι ε}

omit [DecidableEq ι] in
theorem leaving_of_returns {pc : QueuePc ε} {eRet : Option StatusCode}
    (back : returns pc = some eRet) (side : QueueSide) :
    pc.leaving side = false := by
  unfold returns at back
  split at back
  · exact Bool.and_false _
  · rfl
  · rfl
  · rfl
  · cases back

theorem WedgeInv.step {move : QueueMove ι ε} (inv : WedgeInv this.queue this.clients)
    (proceeds : this.ProceedsMove move) (steps : Step this move after) :
    WedgeInv after.queue after.clients := by
  cases steps with
  | call client call idle =>
    have before : Calm (this.clients client) := by
      rw [idle]
      exact calm_idle
    refine inv.calm before (calm_begin call) ?_ ?_ ?_ ?_ ?_
    · intro side
      rw [idle]
      rfl
    · rw [idle]
      rfl
    · intro op pc place
      cases call <;> cases place
      rfl
    · intro aSide pc place side left
      cases call <;> cases place
      · exact (mem_filter.mp left).2
    · intro op place
      cases call <;> cases place
  | status client interrupted eRet back | void client interrupted back =>
    refine inv.calm (calm_of_returns back) calm_idle (leaving_of_returns back) ?_ nofun nofun nofun
    rw [QueuePc.heldTokens, tokens_of_returns back, tokens_of_returns back]
  | go client interrupted queue next goes => exact inv.go proceeds goes

omit [DecidableEq ι] in
theorem new_wedgeInv {semaMax lQueueSize : Nat} (capacity : 0 < lQueueSize % 4294967296)
    (created : new semaMax lQueueSize = some this) :
    WedgeInv this.queue this.clients := by
  have locks := new_locks created
  unfold new at created
  split at created <;> cases created
  rename_i fits
  exact {
    locks := locks
    isAlive := rfl
    semaMax := lt_of_lt_of_le capacity fits
    mode := nofun
    covers := nofun
    waiters := fun _ => nodup_nil
    token := Or.inl ⟨.put, capacity⟩
    awaited := by
      intro side b awaits
      rcases awaits with ⟨_, _, place⟩ | waits
      · cases place
      · exact absurd waits not_mem_nil
    apart := nofun }

/-- No set of calls waits for itself after a run whose steps proceed. -/
theorem new_run_no_wedge {semaMax lQueueSize : Nat} {start : QueueSystem ι ε}
    {moves : List (QueueMove ι ε)} (capacity : 0 < lQueueSize % 4294967296)
    (created : new semaMax lQueueSize = some start) (along : Along step ProceedsMove start moves)
    (runs : run step start moves = some this) (calls : ι → Prop) :
    ¬ Wedge this calls := by
  have keeps : ∀ (before : QueueSystem ι ε) move after,
      WedgeInv before.queue before.clients → before.ProceedsMove move →
        before.step move = some after → WedgeInv after.queue after.clients :=
    fun _ _ _ inv proceeds steps => inv.step proceeds (step_eq_some steps)
  exact (run_invariant keeps (new_wedgeInv capacity created) along runs).no_wedge calls

end

def Plain : QueuePc ε → Bool
  | .access _ _ .secondRead | .access _ _ .tryAcquire
  | .access _ _ .container | .block _ .queueLock => false
  | _ => true

omit [DecidableEq ι] in
theorem proceeds_plain {this : QueueSystem ι ε} {client : ι}
    (plain : Plain (this.clients client) = true) : this.Proceeds client where
  passes := by
    intro op place
    rw [place] at plain
    cases plain
  tries := by
    intro op bTryLock place
    rw [place] at plain
    cases plain
  blocks := by
    intro aSide place
    rw [place] at plain
    cases plain
  drops := by
    intro drops
    unfold Drops at drops
    split at drops
    · rename_i place
      rw [place] at plain
      cases plain
    · rename_i place
      rw [place] at plain
      cases plain
    · cases drops

/-- `Block` wakes a getter that waits for an element. -/
def blockGetter : List (QueueMove Bool Nat) :=
  [QueueMove.call false (.access .get false)] ++ List.replicate 4 (QueueMove.go false false) ++
    [QueueMove.call true (.block .eGetSide)] ++ List.replicate 6 (QueueMove.go true false) ++
    List.replicate 4 (QueueMove.go false false)

theorem new_run_no_wedge_block :
    ∃ start this : QueueSystem Bool Nat, new 2147483647 1 = some start ∧
      run step start blockGetter = some this ∧
      ∀ calls, ¬ Wedge this calls := by
  have capacity : 0 < 1 % 4294967296 := by decide
  have along : ∀ start : QueueSystem Bool Nat,
      new 2147483647 1 = some start → Along step ProceedsMove start blockGetter := by
    intro start created
    cases created
    refine .cons trivial rfl (.cons (proceeds_plain rfl) rfl ?_)
    refine .cons (proceeds_plain rfl) rfl ?_
    refine .cons (proceeds_plain rfl) rfl ?_
    refine .cons (proceeds_plain rfl) rfl ?_
    refine .cons trivial rfl (.cons (proceeds_plain rfl) rfl ?_)
    refine .cons (proceeds_plain rfl) rfl ?_
    -- `Block` takes the queue lock, and the getter is at its semaphore.
    refine .cons ⟨nofun, nofun, ?_, nofun⟩ rfl ?_
    · intro aSide _ d op place
      cases d <;> cases place
    refine .cons (proceeds_plain rfl) rfl ?_
    refine .cons (proceeds_plain rfl) rfl ?_
    refine .cons (proceeds_plain rfl) rfl ?_
    refine .cons (proceeds_plain rfl) rfl ?_
    refine .cons (proceeds_plain rfl) rfl ?_
    refine .cons (proceeds_plain rfl) rfl ?_
    -- The getter drops the token that `Block` made; there is a free slot.
    refine .cons ⟨?_, nofun, nofun, ?_⟩ rfl trivial
    · intro op place open'
      cases place
      cases open'
    · exact fun _ => Or.inl ⟨.put, zero_lt_one⟩
  have noWedge : ∀ start this : QueueSystem Bool Nat, new 2147483647 1 = some start →
        run step start blockGetter = some this → ∀ calls, ¬ Wedge this calls :=
    fun start _ created runs =>
      new_run_no_wedge capacity created (along start created) runs
  exact ⟨_, _, rfl, rfl, noWedge _ _ rfl rfl⟩

/-- `Block` waits for a putter that has passed its second check and waits for
the queue lock that `Block` has. -/
theorem not_new_run_no_wedge :
    ¬ ∀ (start this : QueueSystem Bool Nat)
      (moves : List (QueueMove Bool Nat)) (calls : Bool → Prop),
      new 2147483647 1 = some start → run step start moves = some this → ¬ Wedge this calls := by
  intro always
  refine always _ _
    ([QueueMove.call false (.access (.put 5) false)] ++
      List.replicate 8 (QueueMove.go false false) ++
      [QueueMove.call true (.block .ePutSide)] ++
      List.replicate 6 (QueueMove.go true false)) (fun _ => True) rfl rfl ?_
  exact {
    nonempty := ⟨true, trivial⟩
    waits := by
      intro c _
      cases c with
      | false =>
        exact ⟨.queueLock, rfl, ⟨true, nofun, trivial, rfl⟩, fun _ _ => trivial⟩
      | true =>
        exact ⟨.blockingCond .put, rfl, ⟨false, nofun, trivial, rfl⟩, fun _ _ => trivial⟩ }

end QueueSystem

end Coast
