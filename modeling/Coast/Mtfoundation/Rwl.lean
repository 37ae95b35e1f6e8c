import Coast.Library.Ownership
import Coast.Library.Runs

/-!
# The read/write lock

The functions `rwl_…` keep four counts under a mutex and two conditions to
wait on.  A thread may hold several locks; it only gives back what it has.
-/

namespace Coast

inductive RwlOp where
  | readLock
  | readTryLock
  | readUnlock
  | writeLock
  | writeTryLock
  | writeUnlock
  deriving DecidableEq, Repr

/-- Where a thread is; `writer` tells which of the two conditions it waits
on. -/
inductive RwlPc where
  | idle
  /-- Before `pthread_mutex_lock`. -/
  | entering (op : RwlOp)
  | inside (op : RwlOp)
  /-- Blocked in `pthread_cond_wait`. -/
  | blocked (writer : Bool)
  /-- Unblocked, but without the mutex yet. -/
  | woken (writer : Bool)
  /-- Back from `pthread_cond_wait`. -/
  | resumed (writer : Bool)
  deriving DecidableEq, Repr

def RwlPc.wake : RwlPc → RwlPc
  | .blocked writer => .woken writer
  | pc => pc

/-- Where a thread is, and the locks that it holds. -/
structure RwlThread where
  pc : RwlPc
  reads : Nat
  writes : Nat
  deriving DecidableEq, Repr

def RwlThread.woken (thread : RwlThread) : RwlThread := { thread with pc := thread.pc.wake }

/-- The counters of `rwlock_t`, and its threads. -/
structure RwlockT (ι : Type) where
  mutex : Option ι
  rActive : Int
  rWait : Int
  wActive : Int
  wWait : Int
  threads : ι → RwlThread

inductive RwlMove (ι : Type) where
  | call (thread : ι) (op : RwlOp)
  /-- The thread goes on; `signalled` is the thread that a signal unblocks. -/
  | go (thread : ι) (signalled : Option ι)
  | spurious (thread : ι)

namespace RwlockT

variable {ι : Type} [DecidableEq ι]

def set (this : RwlockT ι) (me : ι) (thread : RwlThread) : RwlockT ι :=
  { this with threads := Function.update this.threads me thread }

def setPc (this : RwlockT ι) (me : ι) (pc : RwlPc) : RwlockT ι :=
  this.set me { this.threads me with pc := pc }

def condBroadcast (this : RwlockT ι) (writer : Bool) : RwlockT ι :=
  { this with
    threads := fun i =>
      if (this.threads i).pc = .blocked writer then
        (this.threads i).woken
      else this.threads i }

/-- One thread that is blocked is woken, if there is one. -/
def condSignal [Fintype ι] (this : RwlockT ι) (writer : Bool) : Option ι → Option (RwlockT ι)
  | some i =>
    if (this.threads i).pc = .blocked writer then
      some (this.set i (this.threads i).woken)
    else none
  | none =>
    if ∀ i, (this.threads i).pc ≠ .blocked writer then some this
    else none

def readActive (this : RwlockT ι) (me : ι) : RwlockT ι :=
  { this with rActive := this.rActive + 1 }.set me
    { this.threads me with
      pc := .idle
      reads := (this.threads me).reads + 1 }

def writeActive (this : RwlockT ι) (me : ι) : RwlockT ι :=
  { this with wActive := 1 }.set me
    { this.threads me with
      pc := .idle
      writes := (this.threads me).writes + 1 }

def rwlReadlock (this : RwlockT ι) (me : ι) : RwlockT ι :=
  if this.wActive ≠ 0 then
    { this with rWait := this.rWait + 1 }.setPc me (.blocked false)
  else this.readActive me

def rwlReadtrylock (this : RwlockT ι) (me : ι) : RwlockT ι :=
  if this.wActive ≠ 0 then this.setPc me .idle
  else this.readActive me

/-- The last reader signals a writer. -/
def rwlReadunlock [Fintype ι] (this : RwlockT ι) (me : ι)
    (signalled : Option ι) : Option (RwlockT ι) :=
  let after := { this with rActive := this.rActive - 1 }.set me
    { this.threads me with
      pc := .idle
      reads := (this.threads me).reads - 1 }
  if after.rActive = 0 ∧ 0 < after.wWait then
    after.condSignal true signalled
  else some after

def rwlWritelock (this : RwlockT ι) (me : ι) : RwlockT ι :=
  if this.wActive ≠ 0 ∨ 0 < this.rActive then
    { this with wWait := this.wWait + 1 }.setPc me (.blocked true)
  else this.writeActive me

def rwlWritetrylock (this : RwlockT ι) (me : ι) : RwlockT ι :=
  if this.wActive ≠ 0 ∨ 0 < this.rActive then this.setPc me .idle
  else this.writeActive me

/-- Waiting readers go before waiting writers. -/
def rwlWriteunlock [Fintype ι] (this : RwlockT ι) (me : ι)
    (signalled : Option ι) : Option (RwlockT ι) :=
  let after := { this with wActive := 0 }.set me
    { this.threads me with
      pc := .idle
      writes := (this.threads me).writes - 1 }
  if 0 < after.rWait then some (after.condBroadcast false)
  else if 0 < after.wWait then after.condSignal true signalled
  else some after

/-- A thread that was woken tests its condition again. -/
def resume (this : RwlockT ι) (me : ι) (writer : Bool) : RwlockT ι :=
  if writer then
    if this.wActive ≠ 0 ∨ 0 < this.rActive then
      this.setPc me (.blocked true)
    else { this with wWait := this.wWait - 1 }.writeActive me
  else
    if this.wActive ≠ 0 then this.setPc me (.blocked false)
    else { this with rWait := this.rWait - 1 }.readActive me

/-- The section of a function under the mutex. -/
def perform [Fintype ι] (this : RwlockT ι) (me : ι) (signalled : Option ι) :
    RwlOp → Option (RwlockT ι)
  | .readLock => some (this.rwlReadlock me)
  | .readTryLock => some (this.rwlReadtrylock me)
  | .readUnlock => this.rwlReadunlock me signalled
  | .writeLock => some (this.rwlWritelock me)
  | .writeTryLock => some (this.rwlWritetrylock me)
  | .writeUnlock => this.rwlWriteunlock me signalled

def Matching (thread : RwlThread) : RwlOp → Prop
  | .readUnlock => 0 < thread.reads
  | .writeUnlock => 0 < thread.writes
  | _ => True

instance (thread : RwlThread) (op : RwlOp) : Decidable (Matching thread op) :=
  match op with
  | .readUnlock => inferInstanceAs (Decidable (0 < thread.reads))
  | .writeUnlock => inferInstanceAs (Decidable (0 < thread.writes))
  | .readLock | .readTryLock | .writeLock | .writeTryLock =>
    inferInstanceAs (Decidable True)

def acquire (this : RwlockT ι) (me : ι) (pc : RwlPc) : Option (RwlockT ι) :=
  if this.mutex = none then
    some ({ this with mutex := some me }.setPc me pc)
  else none

/-- A call, the next step of a thread, or a wait that ends early. -/
def step [Fintype ι] (this : RwlockT ι) : RwlMove ι → Option (RwlockT ι)
  | .call me op =>
    if (this.threads me).pc = .idle ∧ Matching (this.threads me) op then
      some (this.setPc me (.entering op))
    else none
  | .go me signalled =>
    match (this.threads me).pc with
    | .idle => none
    | .entering op => this.acquire me (.inside op)
    | .inside op => do
        let after ← this.perform me signalled op
        some { after with mutex := none }
    | .blocked _ => none
    | .woken writer => this.acquire me (.resumed writer)
    | .resumed writer => some { this.resume me writer with mutex := none }
  | .spurious me =>
    match (this.threads me).pc with
    | .blocked writer => some (this.setPc me (.woken writer))
    | _ => none

def init : RwlockT ι := ⟨none, 0, 0, 0, 0, fun _ => ⟨.idle, 0, 0⟩⟩

end RwlockT

end Coast
