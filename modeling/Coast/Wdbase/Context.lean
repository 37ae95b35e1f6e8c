import Coast.Library.Runs

/-!
# The reference count and the mutex of a session

The mutex is recursive: it knows the thread that has it and how often that
thread locked it again.
-/

namespace Coast

/-- The reference count, and the mutex with how often it is locked. -/
structure Session (τ : Type) where
  fRefCount : Int
  fMutex : Option (τ × Nat)
  deriving DecidableEq, Repr

namespace Session

variable {τ : Type}

def ref (session : Session τ) : Session τ := { session with fRefCount := session.fRefCount + 1 }

def unRef (session : Session τ) : Session τ := { session with fRefCount := session.fRefCount - 1 }

@[simp]
theorem ref_fRefCount {session : Session τ} : (ref session).fRefCount = session.fRefCount + 1 := rfl

@[simp]
theorem unRef_fRefCount {session : Session τ} :
    (unRef session).fRefCount = session.fRefCount - 1 := rfl

variable [DecidableEq τ]

def lock (t : τ) (session : Session τ) : Option (Session τ) :=
  match session.fMutex with
  | none => some { session with fMutex := some (t, 0) }
  | some (u, again) =>
    if u = t then some { session with fMutex := some (t, again + 1) }
    else none

/-- `Unlock()` of the mutex, which does nothing for a thread without it. -/
def unlock (t : τ) (session : Session τ) : Session τ :=
  match session.fMutex with
  | none => session
  | some (u, again) =>
    if u = t then
      { session with fMutex :=
          match again with
          | 0 => none
          | again + 1 => some (t, again) }
    else session

def locks (t : τ) (session : Session τ) : Nat :=
  match session.fMutex with
  | none => 0
  | some (u, again) => if u = t then again + 1 else 0

def isLockedByMe (t : τ) (session : Session τ) : Bool := 0 < session.locks t

variable {t : τ} {session locked : Session τ}

@[simp]
theorem locks_ref (t : τ) : (ref session).locks t = session.locks t := rfl

@[simp]
theorem locks_unRef (t : τ) : (unRef session).locks t = session.locks t := rfl

theorem lock_fRefCount (got : session.lock t = some locked) :
    locked.fRefCount = session.fRefCount := by
  rw [lock] at got
  cases mutex : session.fMutex with
  | none =>
    rw [mutex] at got
    cases got
    rfl
  | some owner =>
    simp only [mutex] at got
    split at got
    · cases got
      rfl
    · cases got

@[simp]
theorem unlock_fRefCount : (session.unlock t).fRefCount = session.fRefCount := by
  rw [unlock]
  cases session.fMutex with
  | none => rfl
  | some owner =>
    simp only
    split
    · rfl
    · rfl

theorem locks_lock (got : session.lock t = some locked) : locked.locks t = session.locks t + 1 := by
  rw [lock] at got
  rw [Session.locks, Session.locks]
  cases mutex : session.fMutex with
  | none =>
    rw [mutex] at got
    cases got
    simp only [if_true]
  | some owner =>
    simp only [mutex] at got
    split at got
    case isTrue mine =>
      cases got
      simp only [if_true, if_pos mine]
    case isFalse => cases got

theorem locks_lock_of_ne {u : τ} (other : u ≠ t) (got : session.lock t = some locked) :
    locked.locks u = session.locks u := by
  rw [lock] at got
  rw [Session.locks, Session.locks]
  cases mutex : session.fMutex with
  | none =>
    rw [mutex] at got
    cases got
    simp only [if_neg other.symm]
  | some owner =>
    simp only [mutex] at got
    split at got
    case isTrue mine =>
      cases got
      simp only [mine, if_neg other.symm]
    case isFalse => cases got

@[simp]
theorem locks_unlock (t : τ) (session : Session τ) :
    (session.unlock t).locks t = session.locks t - 1 := by
  rw [unlock, locks, locks]
  cases mutex : session.fMutex with
  | none => simp only [mutex]
  | some owner =>
    rcases owner with ⟨u, again⟩
    by_cases mine : u = t
    · cases again with
      | zero => simp only [if_pos mine]
      | succ again =>
        simp only [if_pos mine, if_true, Nat.add_sub_cancel]
    · simp only [if_neg mine, mutex]

theorem locks_unlock_of_ne {u : τ} (other : u ≠ t) :
    (session.unlock t).locks u = session.locks u := by
  rw [unlock, locks, locks]
  cases mutex : session.fMutex with
  | none => simp only [mutex]
  | some owner =>
    rcases owner with ⟨v, again⟩
    by_cases mine : v = t
    · cases again with
      | zero => simp only [mine, if_true, if_neg other.symm]
      | succ again => simp only [mine, if_true, if_neg other.symm]
    · simp only [if_neg mine, mutex]

end Session

/-!
## The session of a context

A `Context` counts itself at its session.  It keeps the session's mutex, or
it works on a copy of the session store and has the mutex only to change its
session; which of the two holds is looked up whenever a session is pushed.
-/

open Function

/-- A `Context` of a thread, with the `fWasLockedByMe` of every
`SessionReleaser` whose scope is open, the innermost one first. -/
structure Context (τ σ : Type) where
  thread : τ
  fSession : Option σ
  fCopySessionStore : Bool
  releasers : List Bool
  deriving DecidableEq, Repr

/-- The contexts that were made, those that are destroyed as `none`, and the
sessions. -/
structure Contexts (τ σ : Type) where
  contexts : List (Option (Context τ σ))
  sessions : σ → Session τ

inductive ContextMove (τ σ : Type) where
  /-- A context without a session. -/
  | create (thread : τ)
  /-- `Push(s)`; the answer is that of `Lookup("Context", ..)`, if there is
  one. -/
  | push (c : Nat) (s : Option σ) (answer : Option Bool)
  | enterReleaser (c : Nat)
  | leaveReleaser (c : Nat)
  | destroy (c : Nat)
  deriving DecidableEq, Repr

namespace Context

variable {τ σ : Type} [DecidableEq τ] [DecidableEq σ]

/-- Under the lock a session is counted, when it is another one, and copied
or kept. -/
def take (t : τ) (isDifferent copies : Bool) (session : Session τ) : Option (Session τ) := do
  let locked ← session.lock t
  let counted := if isDifferent then locked.ref else locked
  some (if copies then counted.unlock t else counted)

/-- What the destructor does with its session, and `InitSession` with the
one it replaces. -/
def giveUp (t : τ) (copies : Bool) (session : Session τ) : Option (Session τ) :=
  (if copies then session.lock t else some session).map fun locked =>
    locked.unRef.unlock t

def atSession (sessions : σ → Session τ) (s : Option σ) (change : Session τ → Option (Session τ)) :
    Option (σ → Session τ) :=
  match s with
  | none => some sessions
  | some s => (change (sessions s)).map (update sessions s)

/-- The new session is taken before the old one is given up. -/
def initSession (this : Context τ σ) (sessions : σ → Session τ)
    (s : Option σ) (answer : Option Bool) :
    Option (Context τ σ × (σ → Session τ)) :=
  let sessionIsDifferent := decide (s ≠ this.fSession)
  let copies := answer.getD this.fCopySessionStore
  let saveSession := if sessionIsDifferent then this.fSession else none
  if sessionIsDifferent || copies then do
    let sessions ← atSession sessions s (take this.thread sessionIsDifferent copies)
    let sessions ← atSession sessions saveSession (giveUp this.thread copies)
    some ({ this with fSession := s, fCopySessionStore := copies }, sessions)
  else some ({ this with fCopySessionStore := copies }, sessions)

def unlockSession (this : Context τ σ) (sessions : σ → Session τ) : Bool × (σ → Session τ) :=
  match this.fSession with
  | none => (false, sessions)
  | some s =>
    if this.fCopySessionStore && (sessions s).isLockedByMe this.thread then
      (true, update sessions s ((sessions s).unlock this.thread))
    else (false, sessions)

def lockSession (this : Context τ σ) (sessions : σ → Session τ) : Option (σ → Session τ) :=
  if this.fCopySessionStore then
    atSession sessions this.fSession (Session.lock this.thread)
  else some sessions

end Context

namespace Contexts

variable {τ σ : Type} [DecidableEq τ] [DecidableEq σ]

def at_ (this : Contexts τ σ) (c : Nat) : Option (Context τ σ) := this.contexts[c]?.join

/-- One step of some context. -/
def step (this : Contexts τ σ) : ContextMove τ σ → Option (Contexts τ σ)
  | .create thread =>
    some { this with
      contexts := this.contexts ++ [some ⟨thread, none, false, []⟩] }
  | .push c s answer => do
      let context ← this.at_ c
      let (context, sessions) ← context.initSession this.sessions s answer
      some ⟨this.contexts.set c (some context), sessions⟩
  | .enterReleaser c => do
      let context ← this.at_ c
      let (wasLockedByMe, sessions) := context.unlockSession this.sessions
      let context := { context with
        releasers := wasLockedByMe :: context.releasers }
      some ⟨this.contexts.set c (some context), sessions⟩
  | .leaveReleaser c => do
      let context ← this.at_ c
      match context.releasers with
      | [] => none
      | wasLockedByMe :: releasers =>
        let context := { context with releasers := releasers }
        (if wasLockedByMe then context.lockSession this.sessions
          else some this.sessions).map fun sessions =>
            ⟨this.contexts.set c (some context), sessions⟩
  | .destroy c => do
      let context ← this.at_ c
      if context.releasers = [] then
        (Context.atSession this.sessions context.fSession
          (Context.giveUp context.thread context.fCopySessionStore)).map
            fun sessions => ⟨this.contexts.set c none, sessions⟩
      else none

def new : Contexts τ σ := ⟨[], fun _ => ⟨0, none⟩⟩

end Contexts

end Coast
