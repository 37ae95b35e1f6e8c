import Coast.Library.Runs

/-!
# The recursive mutex

A `Mutex` keeps the thread that locked it in `fLocker`, and every thread keeps
a count of its own.  Both are written step by step, under a simple mutex
that excludes.
-/

namespace Coast

/-- Where a thread is in the code of a `Mutex` and its `Condition`; `hard`
says that `Lock` called `TryLock`.  A wait notes the count that it finds. -/
inductive MutexPc where
  | idle
  | tryLock (hard : Bool)
  | setLocker
  | setCount
  | busy (hard : Bool)
  | recurse
  | hardLock
  | unlock
  | decrement
  | clearLocker
  | clearCount
  | release
  | releaseForWait (count : Int)
  | condWait (count : Int)
  | waiting (count : Int)
  | acquireAfterWait (count : Int)
  deriving DecidableEq, Repr

/-- A thread: its lock count, and how many locks it got and gave back. -/
structure MutexThread where
  pc : MutexPc
  count : Int
  locks : Nat
  unlocks : Nat
  deriving DecidableEq, Repr

/-- The system's mutex and the recorded locker; the counts are the threads' own. -/
structure Mutex (ι : Type) where
  fMutex : Option ι
  fLocker : Option ι
  threads : ι → MutexThread

inductive MutexMove where
  | lock
  | tryLock
  | unlock
  | wait
  /-- The call goes on. -/
  | go
  /-- The wait on the condition fails at once. -/
  | refused
  deriving DecidableEq, Repr

namespace Mutex

variable {ι : Type} [DecidableEq ι]

def setCount (newCount : Int) : Int := if newCount ≤ 0 then 0 else newCount

/-- One step of a thread: what becomes of the simple mutex, of `fLocker` and
of the thread.  A signal may be spurious, so that a waiting thread goes on
whenever it gets the simple mutex. -/
def advance (me : ι) (fMutex fLocker : Option ι) (thread : MutexThread) :
    MutexMove → Option (Option ι × Option ι × MutexThread)
  | .lock =>
    match thread.pc with
    | .idle => some (fMutex, fLocker, { thread with pc := .tryLock true })
    | _ => none
  | .tryLock =>
    match thread.pc with
    | .idle => some (fMutex, fLocker, { thread with pc := .tryLock false })
    | _ => none
  | .unlock =>
    match thread.pc with
    | .idle => some (fMutex, fLocker, { thread with pc := .unlock })
    | _ => none
  | .wait =>
    match thread.pc with
    | .idle => some (fMutex, fLocker, { thread with pc := .releaseForWait thread.count })
    | _ => none
  | .refused =>
    match thread.pc with
    | .condWait count => some (fMutex, fLocker, { thread with pc := .acquireAfterWait count })
    | _ => none
  | .go =>
    match thread.pc with
    | .idle => none
    | .tryLock hard =>
      if fMutex = none then
        some (some me, fLocker, { thread with pc := .setLocker })
      else some (fMutex, fLocker, { thread with pc := .busy hard })
    | .setLocker => some (fMutex, some me, { thread with pc := .setCount })
    | .setCount => some (fMutex, fLocker, ⟨.idle, setCount 1, thread.locks + 1, thread.unlocks⟩)
    | .busy hard =>
      if fLocker = some me then
        some (fMutex, fLocker, { thread with pc := .recurse })
      else if hard then
        some (fMutex, fLocker, { thread with pc := .hardLock })
      else some (fMutex, fLocker, { thread with pc := .idle })
    | .recurse => some (fMutex, fLocker,
        ⟨.idle, setCount (1 + thread.count), thread.locks + 1, thread.unlocks⟩)
    | .hardLock =>
      if fMutex = none then
        some (some me, fLocker, { thread with pc := .setLocker })
      else none
    | .unlock =>
      if fLocker = some me then
        some (fMutex, fLocker, { thread with pc := .decrement })
      else some (fMutex, fLocker, { thread with pc := .idle })
    | .decrement =>
      if thread.count - 1 ≤ 0 then
        some (fMutex, fLocker,
          { thread with
            pc := .clearLocker
            count := setCount (thread.count - 1) })
      else some (fMutex, fLocker,
        ⟨.idle, setCount (thread.count - 1), thread.locks, thread.unlocks + 1⟩)
    | .clearLocker => some (fMutex, none, { thread with pc := .clearCount })
    | .clearCount => some (fMutex, fLocker, { thread with pc := .release, count := setCount 0 })
    | .release =>
      if fMutex = some me then
        some (none, fLocker, { thread with pc := .idle, unlocks := thread.unlocks + 1 })
      else none
    | .releaseForWait count =>
      some (fMutex, none, { thread with pc := .condWait count })
    | .condWait count =>
      if fMutex = some me then
        some (none, fLocker, { thread with pc := .waiting count })
      else none
    | .waiting count =>
      if fMutex = none then
        some (some me, fLocker, { thread with pc := .acquireAfterWait count })
      else none
    | .acquireAfterWait _ =>
      some (fMutex, some me, { thread with pc := .idle })

def step (this : Mutex ι) (move : ι × MutexMove) : Option (Mutex ι) := do
  let (fMutex, fLocker, thread) ←
    advance move.1 this.fMutex this.fLocker (this.threads move.1) move.2
  some ⟨fMutex, fLocker, Function.update this.threads move.1 thread⟩

def unlocked : Mutex ι := ⟨none, none, fun _ => ⟨.idle, 0, 0, 0⟩⟩

end Mutex

/-!
## Who owns a recursive mutex

The simple mutex, `fLocker` and the counts say the same at every step, but
for the moment between two assignments of the owner.
-/

open Runs Option

namespace Mutex

def Holds (thread : MutexThread) : Prop :=
  match thread.pc with
  | .idle | .tryLock _ | .busy _ | .unlock => 0 < thread.count
  | .hardLock | .waiting _ => False
  | _ => True

def IsLocker (thread : MutexThread) : Prop :=
  match thread.pc with
  | .idle | .tryLock _ | .busy _ | .unlock => 0 < thread.count
  | .setCount | .recurse | .decrement | .clearLocker
  | .releaseForWait _ => True
  | _ => False

/-- How the count goes with the calls, wherever the thread is. -/
def CountOk (thread : MutexThread) : Prop :=
  match thread.pc with
  | .idle | .tryLock _ | .busy _ | .unlock =>
    0 ≤ thread.count ∧ (thread.locks : Int) - thread.unlocks = thread.count
  | .hardLock | .setLocker | .setCount =>
    thread.count = 0 ∧ (thread.locks : Int) - thread.unlocks = 0
  | .recurse | .decrement =>
    0 < thread.count ∧ (thread.locks : Int) - thread.unlocks = thread.count
  | .clearLocker | .clearCount | .release =>
    thread.count = 0 ∧ (thread.locks : Int) - thread.unlocks = 1
  | .releaseForWait count | .condWait count | .waiting count
  | .acquireAfterWait count =>
    0 < count ∧ thread.count = count ∧ (thread.locks : Int) - thread.unlocks = count

theorem holds_of_isLocker {thread : MutexThread} (is : IsLocker thread) : Holds thread := by
  unfold IsLocker at is
  unfold Holds
  cases pc : thread.pc <;> rw [pc] at is <;> first | exact is | exact False.elim is

section

variable {ι : Type}

/-- What a thread's place says about the mutex, the locker and the count. -/
structure LocalInv (me : ι) (fMutex fLocker : Option ι) (thread : MutexThread) : Prop where
  mutex : fMutex = some me ↔ Holds thread
  locker : fLocker = some me ↔ IsLocker thread
  count : CountOk thread

def Inv (this : Mutex ι) : Prop := ∀ t, LocalInv t this.fMutex this.fLocker (this.threads t)

/-- A wait is only started by a thread that owns the mutex. -/
def Meets (this : Mutex ι) (move : ι × MutexMove) : Prop :=
  move.2 = .wait → 0 < (this.threads move.1).count

/-- What other threads see of the simple mutex and of `fLocker` when this
thread changes them. -/
def SameForOthers (me : ι) (before after : Option ι) : Prop :=
  ∀ t, t ≠ me → (after = some t ↔ before = some t)

theorem SameForOthers.refl (me : ι) (value : Option ι) : SameForOthers me value value :=
  fun _ _ => Iff.rfl

theorem SameForOthers.acquired (me : ι) : SameForOthers me none (some me) := by
  intro t different
  constructor
  · intro same
    exact absurd (Option.some.inj same).symm different
  · nofun

theorem SameForOthers.released (me : ι) : SameForOthers me (some me) none := by
  intro t different
  constructor
  · nofun
  · intro same
    exact absurd (Option.some.inj same).symm different

theorem sameForOthers_locker {me : ι} {fMutex fLocker after : Option ι}
    (only : ∀ t, fLocker = some t → fMutex = some t)
    (mine : fMutex = some me) (written : after = some me ∨ after = none) :
    SameForOthers me fLocker after := by
  intro t different
  constructor
  · intro same
    rcases written with isMe | isNone
    · rw [isMe] at same
      exact absurd (Option.some.inj same).symm different
    · rw [isNone] at same
      cases same
  · intro same
    have other := only t same
    rw [mine] at other
    exact absurd (Option.some.inj other).symm different

end

variable {ι : Type} [DecidableEq ι]

section

variable {me : ι} {fMutex fLocker fMutex' fLocker' : Option ι} {thread thread' : MutexThread}

/-- What one step of a thread keeps, by where it is. -/
theorem go_inv (inv : LocalInv me fMutex fLocker thread)
    (only : ∀ t, fLocker = some t → fMutex = some t)
    (steps : advance me fMutex fLocker thread .go = some (fMutex', fLocker', thread')) :
    LocalInv me fMutex' fLocker' thread' ∧ SameForOthers me fMutex fMutex' ∧
      SameForOthers me fLocker fLocker' := by
  rcases inv with ⟨mutex, locker, count⟩
  rcases thread with ⟨pc, number, locks, unlocks⟩
  have same := SameForOthers.refl me
  cases pc with
  | idle => cases steps
  | tryLock hard =>
    simp only [advance] at steps
    split at steps
    · rename_i free
      cases steps
      simp only [Holds, IsLocker, CountOk, free] at mutex locker count
      have zero : number = 0 := by
        have notHeld : ¬ 0 < number := fun held => by
          cases mutex.mpr held
        omega
      rw [free]
      refine ⟨⟨iff_of_true rfl trivial, ?_, zero, count.2.trans zero⟩, .acquired me, same _⟩
      simp only [IsLocker, locker, zero, Int.lt_irrefl]
    · cases steps
      exact ⟨⟨mutex, locker, count⟩, same _, same _⟩
  | setLocker =>
    cases steps
    have mine := mutex.mpr trivial
    exact ⟨⟨iff_of_true mine trivial, iff_of_true rfl trivial, count⟩,
      same _, sameForOthers_locker only mine (.inl rfl)⟩
  | setCount =>
    cases steps
    have one : setCount 1 = 1 := rfl
    have positive : (0 : Int) < setCount 1 := by rw [one]; decide
    refine ⟨⟨iff_of_true (mutex.mpr trivial) positive,
      iff_of_true (locker.mpr trivial) positive, ?_⟩, same _, same _⟩
    simp only [CountOk, one] at count ⊢
    omega
  | busy hard =>
    simp only [advance] at steps
    split at steps
    · rename_i isMe
      cases steps
      have positive : 0 < number := locker.mp isMe
      exact ⟨⟨iff_of_true (mutex.mpr positive) trivial,
        iff_of_true isMe trivial, positive, count.2⟩, same _, same _⟩
    · rename_i notMe
      split at steps
      · cases steps
        simp only [Holds, IsLocker, CountOk] at mutex locker count
        have zero : number = 0 := by
          have notLocked : ¬ 0 < number := fun held =>
            notMe (locker.mpr held)
          omega
        refine ⟨⟨?_, ?_, zero, count.2.trans zero⟩, same _, same _⟩
        · simp only [Holds, mutex, zero, Int.lt_irrefl]
        · simp only [IsLocker, locker, zero, Int.lt_irrefl]
      · cases steps
        exact ⟨⟨mutex, locker, count⟩, same _, same _⟩
  | recurse =>
    cases steps
    simp only [CountOk] at count
    have more : setCount (1 + number) = 1 + number := by
      unfold setCount
      rw [if_neg (by omega)]
    have positive : 0 < setCount (1 + number) := by omega
    refine ⟨⟨iff_of_true (mutex.mpr trivial) positive,
      iff_of_true (locker.mpr trivial) positive, ?_⟩, same _, same _⟩
    simp only [CountOk, more]
    omega
  | hardLock =>
    simp only [advance] at steps
    split at steps
    · rename_i free
      cases steps
      rw [free]
      exact ⟨⟨iff_of_true rfl trivial, locker, count⟩, .acquired me, same _⟩
    · cases steps
  | unlock =>
    simp only [advance] at steps
    split at steps
    · rename_i isMe
      cases steps
      have positive : 0 < number := locker.mp isMe
      exact ⟨⟨iff_of_true (mutex.mpr positive) trivial,
        iff_of_true isMe trivial, positive, count.2⟩, same _, same _⟩
    · cases steps
      exact ⟨⟨mutex, locker, count⟩, same _, same _⟩
  | decrement =>
    simp only [advance] at steps
    simp only [CountOk] at count
    split at steps
    · rename_i last
      cases steps
      have zero : setCount (number - 1) = 0 := by
        unfold setCount
        rw [if_pos last]
      refine ⟨⟨mutex, locker, zero, ?_⟩, same _, same _⟩
      dsimp only
      omega
    · rename_i more
      cases steps
      have less : setCount (number - 1) = number - 1 := by
        unfold setCount
        rw [if_neg more]
      have positive : 0 < setCount (number - 1) := by omega
      refine ⟨⟨iff_of_true (mutex.mpr trivial) positive,
        iff_of_true (locker.mpr trivial) positive, ?_⟩, same _, same _⟩
      simp only [CountOk, less]
      omega
  | clearLocker =>
    cases steps
    have mine := mutex.mpr trivial
    exact ⟨⟨mutex, iff_of_false nofun id, count⟩, same _, sameForOthers_locker only mine (.inr rfl)⟩
  | clearCount =>
    cases steps
    exact ⟨⟨mutex, locker, rfl, count.2⟩, same _, same _⟩
  | release =>
    simp only [advance] at steps
    split at steps
    · rename_i mine
      cases steps
      rw [mine]
      simp only [CountOk] at count
      refine ⟨⟨?_, ?_, ?_⟩, .released me, same _⟩
      · simp only [Holds, count.1, Int.lt_irrefl, reduceCtorEq]
      · simp only [IsLocker, count.1, Int.lt_irrefl, locker]
      · simp only [CountOk]
        omega
    · cases steps
  | releaseForWait saved =>
    cases steps
    have mine := mutex.mpr trivial
    exact ⟨⟨mutex, iff_of_false nofun id, count⟩, same _, sameForOthers_locker only mine (.inr rfl)⟩
  | condWait saved =>
    simp only [advance] at steps
    split at steps
    · rename_i mine
      cases steps
      rw [mine]
      exact ⟨⟨iff_of_false nofun id, locker, count⟩, .released me, same _⟩
    · cases steps
  | waiting saved =>
    simp only [advance] at steps
    split at steps
    · rename_i free
      cases steps
      rw [free]
      exact ⟨⟨iff_of_true rfl trivial, locker, count⟩, .acquired me, same _⟩
    · cases steps
  | acquireAfterWait saved =>
    cases steps
    have mine := mutex.mpr trivial
    have positive : 0 < number := by
      simp only [CountOk] at count
      omega
    refine ⟨⟨iff_of_true mine positive, iff_of_true rfl positive, ?_⟩,
      same _, sameForOthers_locker only mine (.inl rfl)⟩
    simp only [CountOk] at count ⊢
    omega

theorem advance_inv {move : MutexMove} (inv : LocalInv me fMutex fLocker thread)
    (only : ∀ t, fLocker = some t → fMutex = some t) (meets : move = .wait → 0 < thread.count)
    (steps : advance me fMutex fLocker thread move = some (fMutex', fLocker', thread')) :
    LocalInv me fMutex' fLocker' thread' ∧ SameForOthers me fMutex fMutex' ∧
      SameForOthers me fLocker fLocker' := by
  have same := SameForOthers.refl me
  cases move with
  | go => exact go_inv inv only steps
  | wait =>
    have positive := meets rfl
    rcases inv with ⟨mutex, locker, count⟩
    rcases thread with ⟨pc, number, locks, unlocks⟩
    cases pc <;> simp only [advance] at steps <;> cases steps
    exact ⟨⟨iff_of_true (mutex.mpr positive) trivial,
      iff_of_true (locker.mpr positive) trivial, positive, rfl, count.2⟩,
      same _, same _⟩
  | lock | tryLock | unlock | refused =>
    rcases inv with ⟨mutex, locker, count⟩
    rcases thread with ⟨pc, number, locks, unlocks⟩
    cases pc <;> simp only [advance] at steps <;> cases steps
    exact ⟨⟨mutex, locker, count⟩, same _, same _⟩

end

theorem step_inv {this after : Mutex ι} {move : ι × MutexMove} (inv : Inv this)
    (meets : Meets this move) (steps : this.step move = some after) : Inv after := by
  rcases bind_eq_some_iff.mp steps with ⟨result, advances, same⟩
  rcases result with ⟨fMutex, fLocker, thread⟩
  cases same
  have only : ∀ t, this.fLocker = some t → this.fMutex = some t := by
    intro t recorded
    exact (inv t).mutex.mpr (holds_of_isLocker ((inv t).locker.mp recorded))
  rcases advance_inv (inv move.1) only meets advances with ⟨mine, sameMutex, sameLocker⟩
  intro t
  by_cases isMe : t = move.1
  · rw [isMe]
    dsimp only
    rw [Function.update_self]
    exact mine
  · dsimp only
    rw [Function.update_of_ne isMe]
    exact ⟨(sameMutex t isMe).trans (inv t).mutex,
      (sameLocker t isMe).trans (inv t).locker, (inv t).count⟩

theorem unlocked_inv {ι : Type} : Inv (unlocked : Mutex ι) := by
  intro t
  refine ⟨?_, ?_, ?_⟩
  · simp only [unlocked, Holds, Int.lt_irrefl, reduceCtorEq]
  · simp only [unlocked, IsLocker, Int.lt_irrefl, reduceCtorEq]
  · exact ⟨Int.le_refl 0, rfl⟩

/-! ## What the threads rely on -/

/-- The thread is in a wait, from `ReleaseForWait` to
`AcquireAfterWait`. -/
def InWait (thread : MutexThread) : Prop :=
  match thread.pc with
  | .releaseForWait _ | .condWait _ | .waiting _
  | .acquireAfterWait _ => True
  | _ => False

/-- The thread has written one of `fLocker` and its count, and not yet the
other. -/
def Between (thread : MutexThread) : Prop := thread.pc = .setCount ∨ thread.pc = .clearLocker

def Owns (this : Mutex ι) (t : ι) : Prop := 0 < (this.threads t).count ∧ ¬ InWait (this.threads t)

def returned (this : Mutex ι) (t : ι) : Mutex ι :=
  ⟨this.fMutex, this.fLocker, Function.update this.threads t { this.threads t with pc := .idle }⟩

/-- One owner, who is recorded with its count; an `Unlock` of another changes nothing. -/
structure Sound (this : Mutex ι) : Prop where
  exclusive : ∀ t u, Owns this t → Owns this u → t = u
  recorded : ∀ t, ¬ InWait (this.threads t) → ¬ Between (this.threads t) →
    (this.fLocker = some t ↔ 0 < (this.threads t).count)
  unlockForeign : ∀ t, (this.threads t).pc = .unlock → ¬ Owns this t →
    this.step (t, .go) = some (this.returned t)
  balanced : ∀ t, (this.threads t).pc = .idle →
    ((this.threads t).locks : Int) - (this.threads t).unlocks = (this.threads t).count ∧
      (this.fMutex = some t ↔ (this.threads t).unlocks < (this.threads t).locks)
  released : ∀ t count, (this.threads t).pc = .waiting count →
    this.fMutex ≠ some t ∧ this.fLocker ≠ some t
  restored : ∀ t count, (this.threads t).pc = .acquireAfterWait count →
    (this.threads t).count = count ∧ this.fMutex = some t ∧
      this.step (t, .go) = some { this.returned t with fLocker := some t }

omit [DecidableEq ι] in
theorem holds_of_owns {thread : MutexThread} (ok : CountOk thread)
    (positive : 0 < thread.count) (awake : ¬ InWait thread) :
    Holds thread := by
  unfold CountOk at ok
  unfold InWait at awake
  unfold Holds
  cases pc : thread.pc <;> rw [pc] at ok awake <;>
    first
      | exact positive
      | trivial
      | exact absurd ok.1 (by omega)
      | exact absurd trivial awake

theorem isLocker_iff {thread : MutexThread} (ok : CountOk thread)
    (awake : ¬ InWait thread) (settled : ¬ Between thread) :
    IsLocker thread ↔ 0 < thread.count := by
  unfold CountOk at ok
  unfold InWait at awake
  unfold Between at settled
  unfold IsLocker
  cases pc : thread.pc <;> rw [pc] at ok awake settled <;>
    first
      | exact Iff.rfl
      | exact absurd trivial awake
      | exact absurd (Or.inl rfl) settled
      | exact absurd (Or.inr rfl) settled
      | exact iff_of_true trivial ok.1
      | exact iff_of_false id (by omega)

theorem Inv.sound {this : Mutex ι} (inv : Inv this) : Sound this where
  exclusive := by
    intro t u first second
    have mine := (inv t).mutex.mpr (holds_of_owns (inv t).count first.1 first.2)
    have other := (inv u).mutex.mpr (holds_of_owns (inv u).count second.1 second.2)
    rw [mine] at other
    exact Option.some.inj other
  recorded := by
    intro t awake settled
    exact (inv t).locker.trans (isLocker_iff (inv t).count awake settled)
  unlockForeign := by
    intro t pc foreign
    have awake : ¬ InWait (this.threads t) := by
      unfold InWait
      rw [pc]
      exact id
    have settled : ¬ Between (this.threads t) := by
      unfold Between
      rw [pc]
      nofun
    have notLocker : this.fLocker ≠ some t := by
      intro isMe
      have locker := (inv t).locker.mp isMe
      have positive := (isLocker_iff (inv t).count awake settled).mp locker
      exact foreign ⟨positive, awake⟩
    simp only [step, advance, pc, if_neg notLocker, bind_eq_bind, bind_some]
    rfl
  balanced := by
    intro t pc
    have mutex := (inv t).mutex
    have count := (inv t).count
    simp only [Holds, CountOk, pc] at mutex count
    refine ⟨count.2, ?_⟩
    rw [mutex]
    omega
  released := by
    intro t count pc
    have mutex := (inv t).mutex
    have locker := (inv t).locker
    simp only [Holds, IsLocker, pc] at mutex locker
    exact ⟨mutex.mp, locker.mp⟩
  restored := by
    intro t count pc
    have mutex := (inv t).mutex
    have counted := (inv t).count
    simp only [Holds, CountOk, pc] at mutex counted
    refine ⟨counted.2.1, mutex.mpr trivial, ?_⟩
    simp only [step, advance, pc, bind_eq_bind, bind_some]
    rfl

/-- In every run in which only owners wait, every state that is reached is
sound. -/
theorem unlocked_run_sound {moves : List (ι × MutexMove)} {this : Mutex ι}
    (along : Along step Meets unlocked moves)
    (runs : run step unlocked moves = some this) : Sound this :=
  (run_invariant (fun _ _ _ => step_inv) unlocked_inv along runs).sound

private theorem noWait {ι : Type} {this : Mutex ι} {t : ι}
    {move : MutexMove} (other : move ≠ .wait) : Meets this (t, move) :=
  fun isWait => absurd isWait other

/-- A thread waits, and another one gets the mutex. -/
theorem unlocked_run_sound_wait :
    ∃ this : Mutex Nat, run step unlocked [(0, .tryLock), (0, .go), (0, .go), (0, .go),
        (0, .wait), (0, .go), (0, .go), (1, .lock), (1, .go)] = some this ∧
      Sound this := by
  have along : Along step Meets (unlocked : Mutex Nat)
      [(0, .tryLock), (0, .go), (0, .go), (0, .go), (0, .wait), (0, .go),
        (0, .go), (1, .lock), (1, .go)] := by
    refine .cons (noWait nofun) rfl (.cons (noWait nofun) rfl ?_)
    refine .cons (noWait nofun) rfl (.cons (noWait nofun) rfl ?_)
    refine .cons (fun _ => by decide) rfl ?_
    refine .cons (noWait nofun) rfl (.cons (noWait nofun) rfl ?_)
    exact .cons (noWait nofun) rfl (.cons (noWait nofun) rfl trivial)
  exact ⟨_, rfl, unlocked_run_sound along rfl⟩

/-- A thread that has just recorded itself has no count yet, and a thread that
waits without the mutex takes the record of the owner away. -/
theorem not_unlocked_run_recorded :
    (¬ ∀ (moves : List (Nat × MutexMove)) (this : Mutex Nat),
      Along step Meets unlocked moves → run step unlocked moves = some this →
        ∀ t, ¬ InWait (this.threads t) → (this.fLocker = some t ↔ 0 < (this.threads t).count)) ∧
    ¬ ∀ (moves : List (Nat × MutexMove)) (this : Mutex Nat), run step unlocked moves = some this →
        ∀ t, (this.threads t).pc = .idle →
          (this.fLocker = some t ↔ 0 < (this.threads t).count) := by
  constructor
  · intro always
    have recorded := always [(0, .tryLock), (0, .go), (0, .go)] _
      (.cons (noWait nofun) rfl (.cons (noWait nofun) rfl
        (.cons (noWait nofun) rfl trivial))) rfl 0 id
    exact absurd (recorded.mp rfl) (by decide)
  · intro always
    have recorded := always [(0, .tryLock), (0, .go), (0, .go), (0, .go),
      (1, .wait), (1, .go)] _ rfl 0 rfl
    exact absurd (recorded.mpr (by decide)) nofun

end Mutex

end Coast
