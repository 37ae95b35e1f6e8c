import Coast.Base.Bytes
import Coast.Library.Runs
import Coast.Mtfoundation.SystemAPI

/-!
# The manager of LDAP connections

A pool has a semaphore, made for the first caller, a free list with the thread
that uses each slot, and a mutex for each slot.  Which slots are looked at
depends on the limit that the caller brings along.
-/

namespace Coast

/-- A slot's connection and when it was bound. -/
structure HandleInfo where
  handle : Option Nat
  lastRebind : Int
  deriving DecidableEq, Repr

/-- What `GetLdapConnection` tells about a slot. -/
structure LdapConnection where
  lastRebind : Int
  handle : Option Nat
  mustRebind : Bool
  deriving DecidableEq, Repr

namespace HandleInfo

/-- No handle; `TimeStamp::Min()` is the start of the epoch. -/
def null : HandleInfo := ⟨none, 0⟩

def handleRebindTimeout (this : HandleInfo) (rebindTimeout now : Int) : LdapConnection where
  lastRebind := this.lastRebind
  handle := this.handle
  mustRebind := this.handle.isNone || (rebindTimeout ≠ 0 && this.lastRebind + rebindTimeout ≤ now)

end HandleInfo

/-- What `ReGetHandleInfo` is called for. -/
inductive LdapUse where
  | getLdapConnection (rebindTimeout : Int)
  | setLdapConnection (maxConnections : Nat) (handle : Option Nat)
  deriving DecidableEq, Repr

/-- The locked section that a thread comes to next.  The section of
`ReGetLockedSlot` that only asserts has no step of its own. -/
inductive LdapPc where
  | idle
  | lookupSema (maxConnections : Nat) (rebindTimeout : Int)
  | acquire (maxConnections : Nat) (rebindTimeout : Int)
  | getUnusedFreeListEntry (maxConnections : Nat) (rebindTimeout : Int)
  | lockSlot (l : Nat) (rebindTimeout : Int)
  | getHandleInfo (slotIndex : Nat) (rebindTimeout : Int)
  /-- `GetLdapConnection` has returned. -/
  | connected
  | reGetLockedSlot (maxConnections : Nat) (use : LdapUse)
  | reGetHandleInfo (slotIndex : Nat) (use : LdapUse)
  | setLockedSlot (maxConnections : Nat) (handleInfo : HandleInfo)
  | setHandleInfo (slotIndex : Nat) (handleInfo : HandleInfo)
  | releaseHandleInfo (maxConnections : Nat)
  | unlockSlot (slotIndex : Nat)
  | clearFreeListEntry (slotIndex : Nat)
  deriving DecidableEq, Repr

namespace LdapPc

/-- The thread is past its wait for the semaphore and has not come to the end
of its release. -/
def hasToken : LdapPc → Bool
  | .idle | .lookupSema .. | .acquire .. => false
  | _ => true

def completed : LdapPc → Bool
  | .idle | .lookupSema .. | .acquire .. | .getUnusedFreeListEntry ..
  | .lockSlot .. | .getHandleInfo .. => false
  | _ => true

def locked : LdapPc → Bool
  | .getHandleInfo .. => true
  | .clearFreeListEntry _ => false
  | pc => pc.completed

end LdapPc

/-- `slot` is the slot that the thread has got. -/
structure LdapClient where
  pc : LdapPc
  slot : Option Nat
  returned : LdapConnection
  deriving DecidableEq, Repr

inductive LdapMove where
  | getLdapConnection (maxConnections : Nat) (rebindTimeout : Int)
  /-- The retry of a thread that has a slot. -/
  | regetLdapConnection (maxConnections : Nat) (rebindTimeout : Int)
  | setLdapConnection (maxConnections : Nat) (handle : Option Nat)
  | releaseHandleInfo (maxConnections : Nat)
  /-- The wait for the semaphore ends without a token, as when a signal
  interrupts it; `GetLdapConnection` goes on. -/
  | acquireFails
  | go (now : Int)
  deriving DecidableEq, Repr

/-- The entries of one pool; the semaphore with its count and the count it
was to be made with, and the mutex of a slot, once it is made, with its locker. -/
structure LdapPool (ι : Type) where
  sema : Option (Nat × Nat)
  mutexes : Nat → Option (Option ι)
  handleInfo : Nat → HandleInfo
  fFreeList : Nat → Option ι
  clients : ι → LdapClient

namespace LdapPool

open Function

variable {ι : Type}

def create : LdapPool ι where
  sema := none
  mutexes _ := none
  handleInfo _ := .null
  fFreeList _ := none
  clients _ := ⟨.idle, none, HandleInfo.null.handleRebindTimeout 0 0⟩

/-- `new Semaphore(maxConnections)`, whose count is an `unsigned`; without a
token when it could not be made. -/
def newSema (maxConnections : Nat) : Nat × Nat :=
  ((SystemAPI.createSema maxConnections).getD 0, maxConnections % 2 ^ 32)

def setSema (this : LdapPool ι) (sema : Option (Nat × Nat)) : LdapPool ι :=
  { this with sema := sema }

def setMutex (this : LdapPool ι) (l : Nat) (locker : Option ι) : LdapPool ι :=
  { this with mutexes := update this.mutexes l (some locker) }

def storeHandleInfo (this : LdapPool ι) (slotIndex : Nat) (handleInfo : HandleInfo) : LdapPool ι :=
  { this with handleInfo := update this.handleInfo slotIndex handleInfo }

def setFreeList (this : LdapPool ι) (l : Nat) (entry : Option ι) : LdapPool ι :=
  { this with fFreeList := update this.fFreeList l entry }

variable [DecidableEq ι]

def setClient (this : LdapPool ι) (me : ι) (client : LdapClient) : LdapPool ι :=
  { this with clients := update this.clients me client }

def moveTo (this : LdapPool ι) (me : ι) (pc : LdapPc) : LdapPool ι :=
  this.setClient me ⟨pc, (this.clients me).slot, (this.clients me).returned⟩

def moveWith (this : LdapPool ι) (me : ι) (slot : Option Nat) (pc : LdapPc) : LdapPool ι :=
  this.setClient me ⟨pc, slot, (this.clients me).returned⟩

def return_ (this : LdapPool ι) (me : ι) (slot : Option Nat)
    (returned : LdapConnection) : LdapPool ι :=
  this.setClient me ⟨.connected, slot, returned⟩

/-- `GetUnusedFreeListEntry` and `GetThisThreadsFreeListEntry`: the first
entry below the limit that is free, or that is the thread's. -/
def findEntry (this : LdapPool ι) (maxConnections : Nat) (entry : Option ι) : Option Nat :=
  (List.range maxConnections).find? fun l => this.fFreeList l = entry

def tryLock (this : LdapPool ι) (me : ι) (l : Nat) : Option (LdapPool ι) :=
  match this.mutexes l with
  | some (some locker) => if locker = me then some this else none
  | _ => some (this.setMutex l (some me))

def unlock (this : LdapPool ι) (me : ι) (l : Nat) : LdapPool ι :=
  if this.mutexes l = some (some me) then this.setMutex l none else this

/-- The next locked section of a thread. -/
def go (this : LdapPool ι) (me : ι) (now : Int) : Option (LdapPool ι) :=
  let slot := (this.clients me).slot
  match (this.clients me).pc with
  | .idle | .connected => none
  | .lookupSema maxConnections rebindTimeout =>
    let sema :=
      if this.sema = none then some (newSema maxConnections)
      else this.sema
    some ((this.setSema sema).moveTo me (.acquire maxConnections rebindTimeout))
  | .acquire maxConnections rebindTimeout =>
    match this.sema with
    | some (count + 1, initial) =>
      some ((this.setSema (some (count, initial))).moveTo me
        (.getUnusedFreeListEntry maxConnections rebindTimeout))
    | _ => none
  | .getUnusedFreeListEntry maxConnections rebindTimeout =>
    match this.findEntry maxConnections none with
    | some l =>
      some ((this.setFreeList l (some me)).moveWith me (some l) (.lockSlot l rebindTimeout))
    | none =>
      some (this.return_ me none (HandleInfo.null.handleRebindTimeout rebindTimeout now))
  | .lockSlot l rebindTimeout =>
    match this.tryLock me l with
    | some this => some (this.moveTo me (.getHandleInfo l rebindTimeout))
    | none =>
      some (this.return_ me none (HandleInfo.null.handleRebindTimeout rebindTimeout now))
  | .getHandleInfo slotIndex rebindTimeout =>
    some (this.return_ me slot ((this.handleInfo slotIndex).handleRebindTimeout rebindTimeout now))
  | .reGetLockedSlot maxConnections use =>
    match this.findEntry maxConnections (some me), use with
    | some l, _ => some (this.moveTo me (.reGetHandleInfo l use))
    | none, .getLdapConnection rebindTimeout =>
      some (this.return_ me slot (HandleInfo.null.handleRebindTimeout rebindTimeout now))
    | none, .setLdapConnection _ _ => some (this.moveTo me .connected)
  | .reGetHandleInfo slotIndex (.getLdapConnection rebindTimeout) =>
    some (this.return_ me slot ((this.handleInfo slotIndex).handleRebindTimeout rebindTimeout now))
  | .reGetHandleInfo _ (.setLdapConnection maxConnections handle) =>
    some (this.moveTo me (.setLockedSlot maxConnections ⟨handle, now⟩))
  | .setLockedSlot maxConnections handleInfo =>
    match this.findEntry maxConnections (some me) with
    | some l => some (this.moveTo me (.setHandleInfo l handleInfo))
    | none => some (this.moveTo me .connected)
  | .setHandleInfo slotIndex handleInfo =>
    some ((this.storeHandleInfo slotIndex handleInfo).moveTo me .connected)
  | .releaseHandleInfo maxConnections =>
    match this.findEntry maxConnections (some me) with
    | some slotIndex => some (this.moveTo me (.unlockSlot slotIndex))
    | none =>
      some (this.moveWith me none .idle)
  | .unlockSlot slotIndex =>
    some ((this.unlock me slotIndex).moveTo me (.clearFreeListEntry slotIndex))
  | .clearFreeListEntry slotIndex =>
    let sema := this.sema.map fun sema => (sema.1 + 1, sema.2)
    some (((this.setFreeList slotIndex none).setSema sema).moveWith me none .idle)

/-- A thread calls from outside or with a connection; `limit` replaces a limit
of 0 by the default. -/
def step (this : LdapPool ι) (limit : Nat → Nat) (me : ι) : LdapMove → Option (LdapPool ι)
  | .getLdapConnection maxConnections rebindTimeout =>
    if (this.clients me).pc = .idle then
      some (this.moveTo me (.lookupSema (limit maxConnections) rebindTimeout))
    else none
  | .regetLdapConnection maxConnections rebindTimeout =>
    if (this.clients me).pc = .connected then
      some (this.moveTo me (.reGetLockedSlot (limit maxConnections)
        (.getLdapConnection rebindTimeout)))
    else none
  | .setLdapConnection maxConnections handle =>
    if (this.clients me).pc = .connected then
      some (this.moveTo me (.reGetLockedSlot (limit maxConnections)
        (.setLdapConnection (limit maxConnections) handle)))
    else none
  | .releaseHandleInfo maxConnections =>
    if (this.clients me).pc = .connected then
      some (this.moveTo me (.releaseHandleInfo (limit maxConnections)))
    else none
  | .acquireFails =>
    match (this.clients me).pc with
    | .acquire maxConnections rebindTimeout =>
      some (this.moveTo me (.getUnusedFreeListEntry maxConnections rebindTimeout))
    | _ => none
  | .go now => this.go me now

end LdapPool

/-- The pools by their ids, and the mutex of the store. -/
structure LDAPConnectionManager (ι : Type) where
  fDefMaxConnections : Nat
  fLdapConnectionStoreMutex : Option ι
  pools : Bytes → LdapPool ι

structure LdapAction (ι : Type) where
  poolId : Bytes
  me : ι
  move : LdapMove

namespace LDAPConnectionManager

open Function

variable {ι : Type}

def create (fDefMaxConnections : Nat) : LDAPConnectionManager ι where
  fDefMaxConnections := fDefMaxConnections
  fLdapConnectionStoreMutex := none
  pools _ := .create

def limit (this : LDAPConnectionManager ι) (maxConnections : Nat) : Nat :=
  if maxConnections ≠ 0 then maxConnections else this.fDefMaxConnections

/-- Who holds the mutex of the store after a move, where it can be made. -/
def storeMutexAfter (this : LDAPConnectionManager ι) (me : ι) :
    LdapMove → LdapPc → Option (Option ι)
  | .go _, .clearFreeListEntry _ => some none
  | .go _, .unlockSlot _ =>
    if this.fLdapConnectionStoreMutex.isNone then some (some me) else none
  | .go _, .lookupSema .. | .go _, .lockSlot .. | .go _, .getHandleInfo ..
  | .go _, .reGetHandleInfo .. | .go _, .setHandleInfo .. =>
    if this.fLdapConnectionStoreMutex.isNone then some none else none
  | _, _ => some this.fLdapConnectionStoreMutex

variable [DecidableEq ι]

/-- A step of one pool, with the mutex that all pools share. -/
def step (this : LDAPConnectionManager ι) (action : LdapAction ι) :
    Option (LDAPConnectionManager ι) := do
  let pool := this.pools action.poolId
  let mutex ← this.storeMutexAfter action.me action.move (pool.clients action.me).pc
  let after ← pool.step this.limit action.me action.move
  some { this with
    fLdapConnectionStoreMutex := mutex
    pools := update this.pools action.poolId after }

end LDAPConnectionManager

end Coast
