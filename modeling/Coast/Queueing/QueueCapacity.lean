import Coast.Queueing.QueueTokens

/-!
# The capacity of the queue

Puts into a queue that no call uses succeed without waiting as long as there
are free slots.
-/

namespace Coast

open Runs List Function

namespace Queue

variable {ι ε : Type}

/-- Nobody uses the queue, and `Put` may. -/
structure Free (this : Queue ι ε) : Prop where
  isAlive : this.fAlive = true
  open' : this.feBlocked.putSide = false
  queueLock : this.fQueueLock = none
  blockingLock : this.fBlockingLock .put = none
  blockingCond : this.fBlockingCond .put = []
  blockedLock : this.fBlockedLock = ⟨[], none⟩

def afterPut (this : Queue ι ε) (call : Nat) (anyElement : ε) : Queue ι ε :=
  ((this.acquireSema .put).pushBack call anyElement).releaseSema .get

theorem Free.afterPut {this : Queue ι ε} (free : Free this) (call : Nat)
    (anyElement : ε) : Free (this.afterPut call anyElement) :=
  ⟨free.isAlive, free.open', free.queueLock, free.blockingLock, free.blockingCond, free.blockedLock⟩

section

variable {queue : Queue ι ε} {client : ι}

variable (free : Free queue)
include free

theorem Free.unlockReading [DecidableEq ι] :
    (queue.setBlockedLock ⟨[client], none⟩).unlockReading client = queue := by
  dsimp only [Queue.unlockReading, setBlockedLock]
  rw [erase_cons_head, ← free.blockedLock]

theorem Free.lockReading :
    queue.lockReading client = some (queue.setBlockedLock ⟨[client], none⟩) := by
  rw [Queue.lockReading, free.blockedLock]
  rfl

theorem Free.notBlocked {lock : RWLock ι} :
    ¬ (queue.setBlockedLock lock).feBlocked.has .put = true := by
  intro blocked
  have isOpen := free.open'
  rw [show queue.feBlocked.putSide = true from blocked] at isOpen
  cases isOpen

theorem Free.lockQueue : queue.lockQueue client = some (queue.setQueueLock (some client)) := by
  rw [Queue.lockQueue, free.queueLock]
  rfl

theorem Free.setQueueLock : queue.setQueueLock none = queue := by
  rw [Queue.setQueueLock, ← free.queueLock]

theorem Free.lockBlocking :
    queue.lockBlocking .put client = some (queue.setBlockingLock .put (some client)) := by
  rw [Queue.lockBlocking, free.blockingLock]
  rfl

end

end Queue

namespace QueueSystem

open Queue

variable {ι ε : Type} [DecidableEq ι]

def at' (this : QueueSystem ι ε) (client : ι) (queue : Queue ι ε)
    (pc : QueuePc ε) : QueueSystem ι ε :=
  { this.moveTo client pc with queue := queue }

section

variable {this : QueueSystem ι ε} {client : ι} {queue after : Queue ι ε} {pc next : QueuePc ε}

theorem run_go {moves : List (QueueMove ι ε)} (inside : returns pc = none)
    (goes : goOn queue client (this.numbers client) false pc = some (after, next)) :
    run step (this.at' client queue pc) (.go client false :: moves) =
      run step (this.at' client after next) moves := by
  have steps : (this.at' client queue pc).step (.go client false) =
      some (this.at' client after next) := by
    dsimp only [step, at', moveTo]
    rw [update_self, inside]
    dsimp only
    rw [goes]
    dsimp only [Option.map_some]
    rw [update_idem]
  rw [run, steps]
  rfl

theorem run_access {op : Access ε} {tryLock : Bool} {pc next : AccessPc}
    {moves : List (QueueMove ι ε)}
    (goes : queue.goAccess client (this.numbers client) op tryLock false pc =
      some (after, next)) (inside : ∀ eRet, pc ≠ .returned eRet) :
    run step (this.at' client queue (.access op tryLock pc))
        (.go client false :: moves) =
      run step (this.at' client after (.access op tryLock next)) moves := by
  apply run_go
  · cases pc with
    | returned eRet => exact absurd rfl (inside eRet)
    | _ => rfl
  · rw [goOn, goes]
    rfl

variable {op : Access ε} {tryLock : Bool} {moves : List (QueueMove ι ε)}

theorem run_check {lock read next : AccessPc} (free : Free queue) (puts : op.side = .put)
    (check : lock = .firstLock ∧ read = .firstRead ∧
        next = (if tryLock then .tryAcquire else .enterLock) ∨
      lock = .secondLock ∧ read = .secondRead ∧ next = .queueLock) :
    run step (this.at' client queue (.access op tryLock lock))
        (.go client false :: .go client false :: moves) =
      run step (this.at' client queue (.access op tryLock next)) moves := by
  have locks : queue.goAccess client (this.numbers client) op tryLock false
      lock = some (queue.setBlockedLock ⟨[client], none⟩, read) := by
    rcases check with ⟨rfl, rfl, _⟩ | ⟨rfl, rfl, _⟩ <;>
      rw [goAccess, if_pos free.isAlive, free.lockReading] <;> rfl
  have reads : (queue.setBlockedLock ⟨[client], none⟩).goAccess client
      (this.numbers client) op tryLock false read = some (queue, next) := by
    rcases check with ⟨_, rfl, rfl⟩ | ⟨_, rfl, rfl⟩ <;>
      rw [goAccess, free.unlockReading, puts, if_neg free.notBlocked]
  rcases check with ⟨rfl, rfl, _⟩ | ⟨rfl, rfl, _⟩ <;>
    rw [run_access locks nofun, run_access reads nofun]

variable {anyElement : ε}

theorem run_doPut (free : Free queue) :
    run step (this.at' client queue
        (.access (.put anyElement) tryLock .secondLock))
        (List.replicate 6 (.go client false) ++ moves) =
      run step (this.at' client ((queue.pushBack (this.numbers client) anyElement).releaseSema .get)
        (.access (.put anyElement) tryLock (leave tryLock .eSuccess)))
        moves := by
  have locks : queue.goAccess client (this.numbers client)
      (.put anyElement) tryLock false .queueLock =
        some (queue.setQueueLock (some client), .container) := by
    rw [goAccess, free.lockQueue]
    rfl
  have pushes : (queue.setQueueLock (some client)).goAccess client
      (this.numbers client) (.put anyElement) tryLock false .container =
        some ((queue.setQueueLock (some client)).pushBack
          (this.numbers client) anyElement, .release) := rfl
  have releases : ((queue.setQueueLock (some client)).pushBack
      (this.numbers client) anyElement).goAccess client
        (this.numbers client) (.put anyElement) tryLock false .release =
          some (((queue.pushBack (this.numbers client)
            anyElement).releaseSema .get).setQueueLock (some client),
            .queueUnlock .eSuccess) := rfl
  have unlocks : (((queue.pushBack (this.numbers client)
      anyElement).releaseSema .get).setQueueLock (some client)).goAccess
        client (this.numbers client) (.put anyElement) tryLock false
          (.queueUnlock .eSuccess) =
          some ((queue.pushBack (this.numbers client)
            anyElement).releaseSema .get, leave tryLock .eSuccess) := by
    have same := free.setQueueLock
    rw [← same]
    rfl
  refine (run_check free rfl (.inr ⟨rfl, rfl, rfl⟩)).trans ?_
  refine (run_access locks nofun).trans ?_
  refine (run_access pushes nofun).trans ?_
  refine (run_access releases nofun).trans ?_
  exact run_access unlocks nofun

/-! ## A call of `Put` -/

theorem run_enter (free : Free queue) :
    run step (this.at' client queue
        (.access (.put anyElement) false .enterLock))
        (.go client false :: .go client false :: moves) =
      run step (this.at' client (queue.setBlockingCount .put (queue.fBlockingCount .put + 1))
        (.access (.put anyElement) false .acquire)) moves := by
  have locks : queue.goAccess client (this.numbers client)
      (.put anyElement) false false .enterLock =
        some (queue.setBlockingLock .put (some client), .enterCount) := by
    rw [goAccess]
    dsimp only [Access.side]
    rw [free.lockBlocking]
    rfl
  have counts : (queue.setBlockingLock .put (some client)).goAccess client
      (this.numbers client) (.put anyElement) false false .enterCount =
        some (queue.setBlockingCount .put (queue.fBlockingCount .put + 1), .acquire) := by
    rw [goAccess]
    dsimp only [Access.side, setBlockingLock, setBlockingCount]
    rw [update_idem, ← free.blockingLock, update_eq_self]
  exact (run_access locks nofun).trans (run_access counts nofun)

theorem run_acquire (isAlive : queue.fAlive = true) (slot : 0 < queue.fSema .put) :
    run step (this.at' client queue
        (.access (.put anyElement) false .acquire))
        (.go client false :: .go client false :: moves) =
      run step (this.at' client (queue.acquireSema .put)
        (.access (.put anyElement) false .secondLock)) moves := by
  have takes : queue.goAccess client (this.numbers client)
      (.put anyElement) false false .acquire = some (queue.acquireSema .put, .aliveCheck) := by
    rw [goAccess, isAlive]
    exact if_pos slot
  have checks : (queue.acquireSema .put).goAccess client
      (this.numbers client) (.put anyElement) false false .aliveCheck =
        some (queue.acquireSema .put, .secondLock) := by
    have stays : (queue.acquireSema .put).fAlive = true := isAlive
    rw [goAccess, if_pos stays]
  exact (run_access takes nofun).trans (run_access checks nofun)

theorem run_leave {eRet : StatusCode} (free : Free queue) :
    run step (this.at' client (queue.setBlockingCount .put (queue.fBlockingCount .put + 1))
        (.access (.put anyElement) false (.leaveLock eRet)))
        (List.replicate 3 (.go client false) ++ moves) =
      run step (this.at' client queue
        (.access (.put anyElement) false (.returned eRet))) moves := by
  have counted : Free (queue.setBlockingCount .put
      (queue.fBlockingCount .put + 1)) :=
    ⟨free.isAlive, free.open', free.queueLock, free.blockingLock,
      free.blockingCond, free.blockedLock⟩
  have locks : (queue.setBlockingCount .put
      (queue.fBlockingCount .put + 1)).goAccess client
        (this.numbers client) (.put anyElement) false false
          (.leaveLock eRet) =
          some ((queue.setBlockingCount .put
            (queue.fBlockingCount .put + 1)).setBlockingLock .put
              (some client), .leaveSignal eRet) := by
    rw [goAccess]
    dsimp only [Access.side]
    rw [counted.lockBlocking]
    rfl
  have signals : ((queue.setBlockingCount .put
      (queue.fBlockingCount .put + 1)).setBlockingLock .put
        (some client)).goAccess client (this.numbers client)
          (.put anyElement) false false (.leaveSignal eRet) =
          some (queue.setBlockingLock .put (some client), .leaveUnlock eRet) := by
    rw [goAccess]
    dsimp only [Access.side, setBlockingLock, setBlockingCount, setBlockingCond]
    rw [free.blockingCond, tail_nil, ← free.blockingCond, update_eq_self, update_self,
      Nat.add_sub_cancel, update_idem, update_eq_self]
  have unlocks : (queue.setBlockingLock .put (some client)).goAccess client
      (this.numbers client) (.put anyElement) false false
        (.leaveUnlock eRet) = some (queue, .returned eRet) := by
    rw [goAccess]
    dsimp only [Access.side, setBlockingLock]
    rw [update_idem, ← free.blockingLock, update_eq_self]
  refine (run_access locks nofun).trans ?_
  refine (run_access signals nofun).trans ?_
  exact run_access unlocks nofun

def putCall (client : ι) (anyElement : ε) (bTryLock : Bool) : List (QueueMove ι ε) :=
  .call client (.access (.put anyElement) bTryLock) ::
    List.replicate (if bTryLock then 10 else 16) (.go client false)

def started (this : QueueSystem ι ε) (client : ι) (call : QueueCall ε) : QueueSystem ι ε :=
  { this with
      numbers := Function.update this.numbers client this.begun.length
      begun := this.begun ++ [call] }

def afterPut (this : QueueSystem ι ε) (client : ι) (anyElement : ε)
    (bTryLock : Bool) : QueueSystem ι ε :=
  { this.started client (.access (.put anyElement) bTryLock) with
      queue := this.queue.afterPut this.begun.length anyElement
      returned := this.returned ++ [(this.begun.length, .eSuccess)] }

theorem run_started {call : QueueCall ε} (idle : this.clients client = .idle) :
    run step this (.call client call :: moves) =
      run step ((this.started client call).at' client this.queue call.begin) moves := by
  have steps : this.step (.call client call) =
      some ((this.started client call).at' client this.queue call.begin) := by
    rw [step, idle]
    rfl
  rw [run, steps]
  rfl

theorem run_returned {eRet : StatusCode} :
    run step (this.at' client queue (.access op tryLock (.returned eRet)))
        (.go client false :: moves) =
      run step { this.at' client queue .idle with
        returned := this.returned ++ [(this.numbers client, eRet)] }
        moves := by
  have steps : (this.at' client queue
      (.access op tryLock (.returned eRet))).step (.go client false) =
        some { this.at' client queue .idle with
          returned := this.returned ++ [(this.numbers client, eRet)] } := by
    dsimp only [step, at', moveTo]
    rw [update_self]
    dsimp only [returns]
    rw [update_idem]
  rw [run, steps]
  rfl

theorem run_putCall {bTryLock : Bool} (idle : this.clients client = .idle) (free : Free this.queue)
    (slot : 0 < this.queue.fSema .put) :
    run step this (putCall client anyElement bTryLock ++ moves) =
      run step (this.afterPut client anyElement bTryLock) moves := by
  have number : (this.started client
      (.access (.put anyElement) bTryLock)).numbers client = this.begun.length := update_self _ _ _
  have last : { (this.started client
      (.access (.put anyElement) bTryLock)).at' client
        (this.queue.afterPut this.begun.length anyElement) .idle with
          returned := this.returned ++ [((this.started client
            (.access (.put anyElement) bTryLock)).numbers client,
            .eSuccess)] } = this.afterPut client anyElement bTryLock := by
    rw [number]
    dsimp only [at', moveTo, started, afterPut]
    rw [← idle, update_eq_self]
  have taken : Free (this.queue.acquireSema .put) :=
    ⟨free.isAlive, free.open', free.queueLock, free.blockingLock,
      free.blockingCond, free.blockedLock⟩
  refine (run_started idle).trans ?_
  cases bTryLock with
  | true =>
    have tries : this.queue.goAccess client ((this.started client
        (.access (.put anyElement) true)).numbers client)
          (.put anyElement) true false .tryAcquire =
            some (this.queue.acquireSema .put, .secondLock) := by
      rw [goAccess]
      exact if_pos slot
    refine (run_check free rfl (.inl ⟨rfl, rfl, rfl⟩)).trans ?_
    refine (run_access tries nofun).trans ?_
    refine (run_doPut taken).trans ?_
    refine run_returned.trans ?_
    rw [← last]
    rw [number]
    rfl
  | false =>
    have counted : Free ((this.queue.setBlockingCount .put
        (this.queue.fBlockingCount .put + 1)).acquireSema .put) :=
      ⟨free.isAlive, free.open', free.queueLock, free.blockingLock,
        free.blockingCond, free.blockedLock⟩
    have entered : Free (this.queue.setBlockingCount .put
        (this.queue.fBlockingCount .put + 1)) :=
      ⟨free.isAlive, free.open', free.queueLock, free.blockingLock,
        free.blockingCond, free.blockedLock⟩
    have stillSlot : 0 < (this.queue.setBlockingCount .put
        (this.queue.fBlockingCount .put + 1)).fSema .put := slot
    refine (run_check free rfl (.inl ⟨rfl, rfl, rfl⟩)).trans ?_
    refine (run_enter free).trans ?_
    refine (run_acquire entered.isAlive stillSlot).trans ?_
    refine (run_doPut counted).trans ?_
    refine (run_leave (free.afterPut _ anyElement)).trans ?_
    refine run_returned.trans ?_
    rw [← last]
    rw [number]
    rfl

def putCalls (client : ι) (bTryLock : Bool) : List ε → List (QueueMove ι ε)
  | [] => []
  | anyElement :: elements =>
    putCall client anyElement bTryLock ++ putCalls client bTryLock elements

/-- What a number of puts leave, one after the other. -/
structure HasPut (this after : QueueSystem ι ε) (elements : List ε) : Prop where
  clients : after.clients = this.clients
  free : Free after.queue
  slots : after.queue.fSema .put + elements.length = this.queue.fSema .put
  stored : after.queue.fContainer.map Prod.snd = this.queue.fContainer.map Prod.snd ++ elements
  status : after.returned.map Prod.snd = this.returned.map Prod.snd ++
    List.replicate elements.length .eSuccess

variable (idle : this.clients client = .idle)
include idle

variable (free : Free this.queue)
include free

theorem run_putCalls {bTryLock : Bool}
    (elements : List ε) (slots : elements.length ≤ this.queue.fSema .put) :
    ∃ after, run step this (putCalls client bTryLock elements) =
      some after ∧ HasPut this after elements := by
  induction elements generalizing this with
  | nil =>
    refine ⟨this, rfl, rfl, free, rfl, ?_, ?_⟩
    · exact (append_nil _).symm
    · exact (append_nil _).symm
  | cons anyElement elements ih =>
    have slot : 0 < this.queue.fSema .put := Nat.lt_of_lt_of_le (Nat.succ_pos _) slots
    have left : (this.afterPut client anyElement bTryLock).queue.fSema
        .put = this.queue.fSema .put - 1 := rfl
    have fits : elements.length ≤ (this.afterPut client anyElement bTryLock).queue.fSema .put := by
      rw [left]
      exact Nat.le_sub_one_of_lt slots
    rcases @ih (this.afterPut client anyElement bTryLock) idle
      (free.afterPut _ anyElement) fits with ⟨after, runs, has⟩
    refine ⟨after, (run_putCall idle free slot).trans runs, has.clients, has.free, ?_, ?_, ?_⟩
    · have rest := has.slots
      rw [left] at rest
      rw [length_cons]
      omega
    · rw [has.stored]
      dsimp only [QueueSystem.afterPut, started, Queue.afterPut, pushBack, releaseSema, acquireSema]
      rw [map_append, append_assoc]
      rfl
    · rw [has.status]
      dsimp only [QueueSystem.afterPut, started]
      rw [map_append, append_assoc]
      rfl

theorem run_putFull (noSlot : this.queue.fSema .put = 0) (anyElement : ε) :
    ∃ after, run step this
        (.call client (.access (.put anyElement) true) ::
          List.replicate 4 (.go client false)) = some after ∧
      after.clients client = .idle ∧ after.queue = this.queue ∧
      after.returned.map Prod.snd = this.returned.map Prod.snd ++ [.eFull] := by
  have tries : this.queue.goAccess client ((this.started client
      (.access (.put anyElement) true)).numbers client)
        (.put anyElement) true false .tryAcquire = some (this.queue, .returned .eFull) := by
    have empty : ¬ 0 < this.queue.fSema .put := by
      rw [noSlot]
      exact Nat.lt_irrefl 0
    rw [goAccess]
    exact if_neg empty
  refine ⟨_, (run_started idle).trans ((run_check free rfl (.inl ⟨rfl, rfl, rfl⟩)).trans
    ((run_access tries nofun).trans (run_returned.trans rfl))), ?_, rfl, ?_⟩
  · exact update_self _ _ _
  · dsimp only [started, at', moveTo]
    rw [map_append]
    rfl

theorem run_putWaits (noSlot : this.queue.fSema .put = 0) (anyElement : ε) :
    ∃ after, run step this
        (.call client (.access (.put anyElement) false) ::
          List.replicate 4 (.go client false)) = some after ∧
      after.step (.go client false) = none := by
  refine ⟨_, (run_started idle).trans ((run_check free rfl (.inl ⟨rfl, rfl, rfl⟩)).trans
    (run_enter free)), ?_⟩
  have waits : (this.queue.setBlockingCount .put
      (this.queue.fBlockingCount .put + 1)).goAccess client
        ((this.started client (.access (.put anyElement)
          false)).numbers client) (.put anyElement) false false .acquire = none := by
    have isAlive : (this.queue.setBlockingCount .put
        (this.queue.fBlockingCount .put + 1)).fAlive = true := free.isAlive
    have empty : ¬ 0 < this.queue.fSema .put := by
      rw [noSlot]
      exact Nat.lt_irrefl 0
    rw [goAccess, isAlive]
    exact if_neg empty
  dsimp only [step, at', moveTo]
  rw [update_self]
  dsimp only [returns, goOn]
  rw [waits]
  rfl

end

omit [DecidableEq ι] in
theorem Locks.free {queue : Queue ι ε} {clients : ι → QueuePc ε}
    (locks : Locks queue clients) (isAlive : queue.fAlive = true)
    (open' : queue.feBlocked.putSide = false) (idle : ∀ c, clients c = .idle) : Free queue where
  isAlive := isAlive
  open' := open'
  queueLock := by
    apply locks.queueLock.eq_none
    intro c
    rw [idle c]
    rfl
  blockingLock := by
    apply (locks.blockingLock .put).eq_none
    intro c
    rw [idle c]
    rfl
  blockingCond := by
    apply eq_nil_iff_forall_not_mem.mpr
    intro c waits
    have place := locks.waiters .put c waits
    rw [idle c] at place
    cases place
  blockedLock := by
    have readers : queue.fBlockedLock.readers = [] := by
      apply locks.readers.eq_nil
      intro c
      rw [idle c]
      rfl
    have writer : queue.fBlockedLock.writer = none := by
      apply locks.writer.eq_none
      intro c
      rw [idle c]
      rfl
    cases lock : queue.fBlockedLock with
    | mk others holder =>
      rw [lock] at readers writer
      cases readers
      cases writer
      rfl

/-- Tokens are conserved, and the free slots of a queue that no call uses are
those that its elements leave. -/
structure Conserved [Fintype ι] (lQueueSize : Nat) (this : QueueSystem ι ε) : Prop where
  total : this.queue.fSemaEmptySlots + this.queue.fSemaFullSlots +
    ∑ c, (this.clients c).heldTokens = lQueueSize
  full : this.queue.fSemaFullSlots + ∑ c, (this.clients c).tokens .get =
    this.queue.fContainer.length
  size : this.queue.fContainer.length ≤ lQueueSize
  /-- As many puts as there are free slots succeed without waiting. -/
  puts : (∀ c, this.clients c = .idle) → this.queue.feBlocked.putSide = false →
      ∀ (client : ι) (bTryLock : Bool) (elements : List ε),
        elements.length + this.queue.fContainer.length ≤ lQueueSize →
          ∃ after, run step this (putCalls client bTryLock elements) =
            some after ∧ HasPut this after elements
  /-- One more does not. -/
  isFull : (∀ c, this.clients c = .idle) → this.queue.feBlocked.putSide = false →
      this.queue.fContainer.length = lQueueSize →
        ∀ (client : ι) (anyElement : ε), (∃ after, run step this
              (.call client (.access (.put anyElement) true) ::
                List.replicate 4 (.go client false)) = some after ∧
            after.clients client = .idle ∧ after.queue = this.queue ∧
            after.returned.map Prod.snd = this.returned.map Prod.snd ++ [.eFull]) ∧
          ∃ after, run step this
              (.call client (.access (.put anyElement) false) ::
                List.replicate 4 (.go client false)) = some after ∧
            after.step (.go client false) = none

section

variable [Fintype ι] {lQueueSize : Nat} {this : QueueSystem ι ε}

omit [DecidableEq ι] in
theorem TokenInv.idle_slots (inv : TokenInv lQueueSize this.queue this.clients)
    (idle : ∀ c, this.clients c = .idle) :
    this.queue.fSema .put + this.queue.fContainer.length = lQueueSize := by
  have none' : ∑ c, (this.clients c).heldTokens = 0 := by
    apply Finset.sum_eq_zero
    intro c _
    rw [idle c]
    rfl
  have noGet : ∑ c, (this.clients c).tokens .get = 0 := by
    apply Finset.sum_eq_zero
    intro c _
    rw [idle c]
    rfl
  have total := inv.total
  have full := inv.full
  omega

theorem TokenInv.conserved (inv : TokenInv lQueueSize this.queue this.clients)
    (locks : Locks this.queue this.clients) : Conserved lQueueSize this where
  total := inv.total
  full := inv.full
  size := by
    have le : ∑ c, (this.clients c).tokens .get ≤ ∑ c, (this.clients c).heldTokens :=
      Finset.sum_le_sum fun c _ => Nat.le_add_left _ _
    have total := inv.total
    have full := inv.full
    omega
  puts := by
    intro idle isOpen client bTryLock elements fits
    have slots := inv.idle_slots idle
    apply run_putCalls (idle client) (locks.free inv.isAlive isOpen idle) elements
    omega
  isFull := by
    intro idle isOpen atCapacity client anyElement
    have free := locks.free inv.isAlive isOpen idle
    have slots := inv.idle_slots idle
    have noSlot : this.queue.fSema .put = 0 := by omega
    exact ⟨run_putFull (idle client) free noSlot anyElement,
      run_putWaits (idle client) free noSlot anyElement⟩

/-- Tokens are conserved in every run without the steps that lose or make
one. -/
theorem new_run_conserved {semaMax : Nat} {start : QueueSystem ι ε} {moves : List (QueueMove ι ε)}
    (fits : lQueueSize ≤ semaMax) (isUnsigned : lQueueSize < 4294967296)
    (created : new semaMax lQueueSize = some start) (along : Along step KeepsTokensMove start moves)
    (runs : run step start moves = some this) : Conserved lQueueSize this := by
  have keeps : ∀ (before : QueueSystem ι ε) move after,
      TokenInv lQueueSize before.queue before.clients ∧ Locks before.queue before.clients →
      KeepsTokensMove before move → before.step move = some after →
      TokenInv lQueueSize after.queue after.clients ∧ Locks after.queue after.clients := by
    intro before move after both meets steps
    have inversion := step_eq_some steps
    exact ⟨both.1.step meets inversion, both.2.step inversion⟩
  have first := And.intro (new_tokens fits isUnsigned created) (new_locks created)
  have last := run_invariant keeps first along runs
  exact last.1.conserved last.2

end

/-- A get of one client comes to its semaphore while the put of another one
is on its way. -/
private def putBesideGet : List (QueueMove Bool Nat) :=
  QueueMove.call false (.access (.put 5) true) :: List.replicate 3 (QueueMove.go false false) ++
  QueueMove.call true (.access .get false) :: List.replicate 4 (QueueMove.go true false) ++
  List.replicate 7 (QueueMove.go false false) ++ List.replicate 12 (QueueMove.go true false)

theorem new_run_conserved_putAndGet :
    ∃ start this : QueueSystem Bool Nat, new 2147483647 1 = some start ∧
      run step start putBesideGet = some this ∧
      this.returned = [(0, .eSuccess), (1, .eSuccess)] ∧ Conserved 1 this := by
  have fits : 1 ≤ 2147483647 := by decide
  have isUnsigned : 1 < 4294967296 := by decide
  have along : ∀ start : QueueSystem Bool Nat,
      new 2147483647 1 = some start → Along step KeepsTokensMove start putBesideGet := by
    intro start created
    cases created
    -- up to the tests of the put side and of the get side
    refine .cons trivial rfl (.cons trivial rfl (.cons trivial rfl (.cons trivial rfl ?_)))
    refine .cons trivial rfl (.cons trivial rfl (.cons trivial rfl (.cons trivial rfl ?_)))
    refine .cons trivial rfl (.cons trivial rfl (.cons rfl rfl (.cons trivial rfl ?_)))
    refine .cons trivial rfl (.cons trivial rfl (.cons trivial rfl (.cons trivial rfl ?_)))
    refine .cons trivial rfl (.cons trivial rfl (.cons trivial rfl (.cons rfl rfl ?_)))
    refine .cons trivial rfl (.cons trivial rfl (.cons trivial rfl (.cons trivial rfl ?_)))
    exact .cons trivial rfl (.cons trivial rfl (.cons trivial rfl (.cons trivial rfl trivial)))
  exact ⟨_, _, rfl, rfl, rfl, new_run_conserved fits isUnsigned rfl (along _ rfl) rfl⟩

/-- A put that has its token finds the put side blocked, and the queue of
capacity 1 has no slot left although it is empty and nobody uses it. -/
theorem not_new_run_conserved :
    ¬ ∀ (start this : QueueSystem Bool Nat)
      (moves : List (QueueMove Bool Nat)),
      new 2147483647 1 = some start → run step start moves = some this →
        this.queue.fSemaEmptySlots + this.queue.fSemaFullSlots +
          ∑ c, (this.clients c).heldTokens = 1 := by
  intro always
  have total := always _ _
    ([QueueMove.call false (.access (.put 5) true)] ++
      List.replicate 3 (QueueMove.go false false) ++
      [QueueMove.call true (.block .ePutSide)] ++
      List.replicate 2 (QueueMove.go true false) ++
      List.replicate 3 (QueueMove.go false false) ++
      List.replicate 6 (QueueMove.go true false)) rfl rfl
  exact absurd total (by decide)

end QueueSystem

end Coast
