import Coast.Base.AnyAccess
import Coast.Base.LookupSteps
import Coast.Wdbase.Context

/-!
# The slots of the session list

A session is stored in the slot of its id, found by a path and removed by a
key.
-/

namespace Coast

namespace Slots

variable {σ : Type}

/-- The list as `LookupPath` sees it: an array of objects, which are told
apart by their places. -/
def sessionsHeap (fSessions : Slots σ) : Heap :=
  .array (fSessions.mapIdx fun i slot => (slot.1, some (i + 1))) :: fSessions.map fun _ => .object 0

def lookupSession (fSessions : Slots σ) (id : Bytes) : Option σ :=
  match (Anything.lookupPath fSessions.sessionsHeap (some 0) id (ch '.')
      (ch ':')).2 with
  | some (some (i + 1)) => fSessions[i]?.map Prod.snd
  | _ => none

variable {slots : Slots σ}

theorem lookupSession_mem {id : Bytes} {s : σ} (found : slots.lookupSession id = some s) :
    ∃ key, (key, s) ∈ slots := by
  rw [lookupSession] at found
  split at found
  · rcases Option.map_eq_some_iff.mp found with ⟨slot, at_, rfl⟩
    exact ⟨slot.1, List.mem_of_getElem? at_⟩
  · cases found

theorem findIndex_of_map_fst {α β : Type} {slots : Slots α}
    {slots' : Slots β} (same : slots.map Prod.fst = slots'.map Prod.fst)
    (key : Bytes) : slots.findIndex key = slots'.findIndex key := by
  rw [findIndex_names, findIndex_names, same]

variable (slots) in
theorem doGetAt_list {i : Nat} (inside : i < slots.length) :
    AnythingLookup.doGetAt slots.sessionsHeap (some 0) i = some (i + 1) := by
  show Heap.slot (slots.mapIdx _) _ = _
  rw [Heap.slot, List.getElem?_mapIdx, Int.toNat_natCast, List.getElem?_eq_getElem inside]
  rfl

theorem findIndex_sessionsHeap (text : Bytes) (sizehint hashhint : Nat) :
    slots.sessionsHeap.findIndex (some 0) text sizehint hashhint =
      slots.findIndex (if hashhint ≠ 0 then text.take sizehint else text) := by
  have names : (slots.mapIdx fun i slot =>
      (slot.1, (some (i + 1) : Handle))).map Prod.fst = slots.map Prod.fst := by
    apply List.ext_getElem?
    intro i
    rw [List.getElem?_map, List.getElem?_mapIdx, List.getElem?_map]
    cases slots[i]? with
    | none => rfl
    | some slot => rfl
  exact findIndex_of_map_fst names _

/-- Without delimiters an id is a key. -/
theorem lookupSession_of_noDelimiter {id : Bytes}
    (plain : noDelimiter (ch '.') (ch ':') (cstr id) = true) :
    slots.lookupSession id = slots.lookup (cstr id) := by
  have heap : slots.sessionsHeap.findIndex (some 0) (cstr id) 0 0 =
      slots.findIndex (cstr id) := findIndex_sessionsHeap (cstr id) 0 0
  rw [lookupSession, Anything.lookupPath, lookupWith]
  simp only [plain, if_true, heap]
  rw [lookup]
  cases found : slots.findIndex (cstr id) with
  | none => rfl
  | some i =>
    have inside := findIndex_lt found
    simp only [Option.map_some, doGetAt_list slots inside, Option.bind_some]

end Slots

/-!
## The session list manager

Requests look sessions up, create, disable and release them, and a cleaner
deletes those that nobody uses.  A section under `fSessionsMutex` or under
the mutex of a session is one step; between two steps of a request the others
go on.
-/

open Function

/-- Where the thread of a request is.  `CreateSession` adds the session that
it has pushed under an id; it comes from a cleanup with the number of
sessions that are left. -/
inductive RequestPc where
  | idle
  | initSession (s : Option Nat) (adds : Option (Bytes × Nat))
  | unRef (saveSession : Nat) (adds : Option (Bytes × Nat))
  | makeSession (id : Bytes)
  | cleanupSessions (id : Bytes)
  | deleteSessions (sessions2Delete : List Nat) (creates : Option (Bytes × Nat))
  | addSession (id : Bytes) (s : Nat)
  deriving DecidableEq, Repr

/-- A request and the session of its `Context`; its place in the list of
requests is the id of its thread. -/
structure Request where
  pc : RequestPc
  fSession : Option Nat
  deriving DecidableEq, Repr

/-- The list manager with all the sessions that were made: those with a
smaller number than `created`. -/
structure SessionListManager where
  fSessions : Slots Nat
  fDisabledSessions : Slots Nat
  fMaxSessionsAllowed : Int
  fCopySessionStore : Bool
  sessions : Nat → Session Nat
  fTerminated : Nat → Bool
  deleted : Nat → Bool
  created : Nat
  requests : List Request

inductive SessionMove where
  | connect
  | lookupSession (r : Nat) (id : Bytes)
  /-- `CreateSession`; `InitSession` finds the id or makes it. -/
  | createSession (r : Nat) (id : Bytes)
  | disableSession (r : Nat) (id : Bytes)
  /-- `CleanupSessions` by an action; the timeouts are those that have passed
  by now. -/
  | cleanupSessions (r : Nat) (timeouts : Nat → Bool)
  /-- `Push(0)`, or the end of the context. -/
  | release (r : Nat)
  | go (r : Nat) (timeouts : Nat → Bool)

namespace SessionListManager

variable (this : SessionListManager)

def idle (r : Nat) : Option Request := this.requests[r]?.filter fun request => request.pc = .idle

def setRequest (r : Nat) (request : Request) : SessionListManager :=
  { this with requests := this.requests.set r request }

def canLock (r s : Nat) : Bool := ((this.sessions s).lock r).isSome

def resume : Option (Bytes × Nat) → RequestPc
  | none => .idle
  | some (id, s) => .addSession id s

/-- The session that is replaced, if any, is given back before. -/
def goesOnWith (saveSession : Option Nat) (adds : Option (Bytes × Nat)) : RequestPc :=
  match saveSession with
  | some saveSession => .unRef saveSession adds
  | none => resume adds

/-- The session of a request changes, with its reference counts. -/
def initSession (r : Nat) (request : Request) (s : Option Nat)
    (adds : Option (Bytes × Nat)) : Option SessionListManager :=
  let sessionIsDifferent := decide (s ≠ request.fSession)
  if sessionIsDifferent || this.fCopySessionStore then do
    let sessions ← Context.atSession this.sessions s
      (Context.take r sessionIsDifferent this.fCopySessionStore)
    let saveSession := if sessionIsDifferent then request.fSession else none
    some { this.setRequest r ⟨goesOnWith saveSession adds, s⟩ with
      sessions := sessions }
  else some (this.setRequest r { request with pc := resume adds })

def unRef (r : Nat) (request : Request) (saveSession : Nat)
    (adds : Option (Bytes × Nat)) : Option SessionListManager :=
  (Context.atSession this.sessions (some saveSession)
    (Context.giveUp r this.fCopySessionStore)).map fun sessions =>
      { this.setRequest r { request with pc := resume adds } with
        sessions := sessions }

/-- `IsTerminated`, which does not wait for the mutex of the session. -/
def isTerminated (r s : Nat) : Bool := this.canLock r s && this.fTerminated s

def lookupSession (r : Nat) (id : Bytes) : Option Nat :=
  if id = [] then none
  else
    (this.fSessions.lookupSession id).filter fun s => !this.isTerminated r s

/-- The locked section of a look-up; a session that is found is initialized later. -/
def intLookupSession (r : Nat) (request : Request) (id : Bytes) : SessionListManager :=
  match this.lookupSession r id with
  | none => this
  | some s =>
    { this.setRequest r { request with pc := .initSession (some s) none }
      with
      fTerminated :=
        if this.canLock r s then update this.fTerminated s false
        else this.fTerminated }

/-- The end of `MakeSession`: a new session is pushed if there is room. -/
def doMakeSession (r : Nat) (request : Request) (id : Bytes)
    (sessionsCount : Int) : SessionListManager :=
  if sessionsCount < this.fMaxSessionsAllowed then
    { this.setRequest r { request with
        pc := .initSession (some this.created) (some (id, this.created)) }
      with created := this.created + 1 }
  else this.setRequest r { request with pc := .idle }

def makeSession (r : Nat) (request : Request) (id : Bytes) : SessionListManager :=
  if this.fMaxSessionsAllowed ≤ this.fSessions.length then
    this.setRequest r { request with pc := .cleanupSessions id }
  else this.doMakeSession r request id this.fSessions.length

def addSession (r : Nat) (request : Request) (id : Bytes) (s : Nat) : SessionListManager :=
  { this.setRequest r { request with pc := .idle } with
    fDisabledSessions :=
      match this.fSessions.lookup id with
      | some replaced => this.fDisabledSessions.append replaced
      | none => this.fDisabledSessions
    fSessions := this.fSessions.setKey id s }

/-- The section of `DisableSession`; a session that was found is not the
context's any more. -/
def disableSession (r : Nat) (request : Request) (id : Bytes) : SessionListManager :=
  let found := this.fSessions.lookupSession id
  let pc := if request.fSession = found then .initSession none none else .idle
  match found with
  | some s =>
    { this.setRequest r { request with pc := pc } with
      fDisabledSessions := this.fDisabledSessions.append s
      fSessions := this.fSessions.removeKey id }
  | none => this.setRequest r { request with pc := pc }

/-- What a cleanup changes beside the list it goes over. -/
structure Cleanup where
  sessions : Nat → Session Nat
  fTerminated : Nat → Bool
  fSession : Option Nat
  sessions2Delete : List Nat

/-- `IsDeletable`: the session is not locked, not referenced, and it is
disabled or timed out. -/
def isDeletable (state : Cleanup) (r s : Nat) (isTimeout : Bool) : Bool :=
  ((state.sessions s).lock r).isSome && (state.sessions s).fRefCount = 0 && isTimeout

/-- A session that is done with is deleted or kept, and may be told to terminate. -/
def cleanupSlot (copies : Bool) (r : Nat) (isTimeout : Bool)
    (slot : Bytes × Nat) (kept : Slots Nat) (state : Cleanup) :
    Option (Slots Nat × Cleanup) :=
  let s := slot.2
  let deletable := isDeletable state r s isTimeout
  let terminated :=
    if ((state.sessions s).lock r).isSome && isTimeout then
      update state.fTerminated s true
    else state.fTerminated
  let (kept, sessions2Delete) :=
    if deletable then (kept, state.sessions2Delete ++ [s])
    else (slot :: kept, state.sessions2Delete)
  if state.fSession = some s then
    (Context.atSession state.sessions (some s)
      (Context.giveUp r copies)).map fun sessions =>
        (kept, ⟨sessions, terminated, none, sessions2Delete⟩)
  else
    some (kept, ⟨state.sessions, terminated, state.fSession, sessions2Delete⟩)

/-- `DoCleanup` goes from the last slot to the first; the timeout does not
matter for disabled sessions. -/
def doCleanup (copies : Bool) (r : Nat) (timeouts : Nat → Bool) (roleNotRelevant : Bool) :
    Slots Nat → Cleanup → Option (Slots Nat × Cleanup)
  | [], state => some ([], state)
  | slot :: slots, state => do
      let (kept, state) ← doCleanup copies r timeouts roleNotRelevant slots state
      cleanupSlot copies r (roleNotRelevant || timeouts slot.2) slot kept state

section Cleaning

variable {copies : Bool} {r : Nat}

theorem cleanupSlot_eq_some {isTimeout : Bool} {slot : Bytes × Nat}
    {kept after : Slots Nat} {state state' : Cleanup}
    (cleaned : cleanupSlot copies r isTimeout slot kept state = some (after, state')) :
    (isDeletable state r slot.2 isTimeout = true ∧ after = kept ∧
        state'.sessions2Delete = state.sessions2Delete ++ [slot.2] ∨
      after = slot :: kept ∧ state'.sessions2Delete = state.sessions2Delete) ∧
    (state.fSession = some slot.2 ∧ state'.fSession = none ∧
        Context.atSession state.sessions (some slot.2)
          (Context.giveUp r copies) = some state'.sessions ∨
      state'.fSession = state.fSession ∧ state'.sessions = state.sessions) := by
  rw [cleanupSlot] at cleaned
  cases deletable : isDeletable state r slot.2 isTimeout with
  | true =>
    simp only [deletable, if_true] at cleaned
    split at cleaned
    case isTrue mine =>
      rcases Option.map_eq_some_iff.mp cleaned with ⟨sessions, gave, same⟩
      cases same
      exact ⟨.inl ⟨rfl, rfl, rfl⟩, .inl ⟨mine, rfl, gave⟩⟩
    case isFalse =>
      cases cleaned
      exact ⟨.inl ⟨rfl, rfl, rfl⟩, .inr ⟨rfl, rfl⟩⟩
  | false =>
    simp only [deletable, Bool.false_eq_true, if_false] at cleaned
    split at cleaned
    case isTrue mine =>
      rcases Option.map_eq_some_iff.mp cleaned with ⟨sessions, gave, same⟩
      cases same
      exact ⟨.inr ⟨rfl, rfl⟩, .inl ⟨mine, rfl, gave⟩⟩
    case isFalse =>
      cases cleaned
      exact ⟨.inr ⟨rfl, rfl⟩, .inr ⟨rfl, rfl⟩⟩

theorem doCleanup_cons {timeouts : Nat → Bool} {roleNotRelevant : Bool}
    {slot : Bytes × Nat} {slots kept : Slots Nat} {state state' : Cleanup}
    (cleaned : doCleanup copies r timeouts roleNotRelevant (slot :: slots)
      state = some (kept, state')) :
    ∃ rest middle, doCleanup copies r timeouts roleNotRelevant slots state = some (rest, middle) ∧
      cleanupSlot copies r (roleNotRelevant || timeouts slot.2) slot rest
        middle = some (kept, state') := by
  rcases Option.bind_eq_some_iff.mp cleaned with ⟨⟨rest, middle⟩, others, turn⟩
  exact ⟨rest, middle, others, turn⟩

/-- A clean-up only takes sessions away. -/
theorem doCleanup_sublist {timeouts : Nat → Bool} {roleNotRelevant : Bool}
    {slots kept : Slots Nat} {state state' : Cleanup}
    (cleaned : doCleanup copies r timeouts roleNotRelevant slots state =
      some (kept, state')) : List.Sublist kept slots := by
  induction slots generalizing kept state' with
  | nil =>
    cases cleaned
    exact List.Sublist.refl []
  | cons slot slots ih =>
    rcases doCleanup_cons cleaned with ⟨rest, middle, others, turn⟩
    rcases (cleanupSlot_eq_some turn).1 with ⟨_, same, _⟩ | ⟨same, _⟩
    · rw [same]
      exact (ih others).cons slot
    · rw [same]
      exact (ih others).cons_cons slot

end Cleaning

/-- The locked section of a clean-up of both lists. -/
def cleanupSessions (r : Nat) (request : Request) (timeouts : Nat → Bool)
    (creates : Option Bytes) : Option SessionListManager := do
  let state : Cleanup := ⟨this.sessions, this.fTerminated, request.fSession, []⟩
  let (fSessions, state) ← doCleanup this.fCopySessionStore r timeouts false this.fSessions state
  let (fDisabledSessions, state) ← doCleanup this.fCopySessionStore r
    timeouts true this.fDisabledSessions state
  let szActiveAfter := fSessions.length
  some { this with
    fSessions := fSessions
    fDisabledSessions := fDisabledSessions
    sessions := state.sessions
    fTerminated := state.fTerminated
    requests := this.requests.set r
      ⟨.deleteSessions state.sessions2Delete
        (creates.map fun id => (id, szActiveAfter)), state.fSession⟩ }

/-- `DoDeleteSessions`: the notification and the destructor wait for the
mutex of the session. -/
def deleteSessions (r : Nat) (request : Request) :
    List Nat → Option (Bytes × Nat) → Option SessionListManager
  | s :: sessions2Delete, creates =>
    if this.canLock r s then
      some { this.setRequest r { request with
          pc := .deleteSessions sessions2Delete creates } with
        deleted := update this.deleted s true }
    else none
  | [], some (id, szActiveAfter) =>
    some (this.doMakeSession r request id szActiveAfter)
  | [], none => some (this.setRequest r { request with pc := .idle })

/-- The next step of a request. -/
def goOn (r : Nat) (request : Request) (timeouts : Nat → Bool) : Option SessionListManager :=
  match request.pc with
  | .idle => none
  | .initSession s adds => this.initSession r request s adds
  | .unRef saveSession adds => this.unRef r request saveSession adds
  | .makeSession id => some (this.makeSession r request id)
  | .cleanupSessions id => this.cleanupSessions r request timeouts (some id)
  | .deleteSessions sessions2Delete creates =>
    this.deleteSessions r request sessions2Delete creates
  | .addSession id s => some (this.addSession r request id s)

/-- A request begins, or goes on, or a session is disabled or cleaned up. -/
def step : SessionMove → Option SessionListManager
  | .connect =>
    some { this with requests := this.requests ++ [⟨.idle, none⟩] }
  | .lookupSession r id =>
    (this.idle r).map fun request => this.intLookupSession r request id
  | .createSession r id =>
    (this.idle r).map fun request =>
      this.setRequest r { request with pc := .makeSession id }
  | .disableSession r id =>
    (this.idle r).map fun request => this.disableSession r request id
  | .cleanupSessions r timeouts =>
    (this.idle r).bind fun request =>
      this.cleanupSessions r request timeouts none
  | .release r =>
    (this.idle r).map fun request =>
      this.setRequest r { request with pc := .initSession none none }
  | .go r timeouts =>
    this.requests[r]?.bind fun request => this.goOn r request timeouts

def new (fMaxSessionsAllowed : Int) (fCopySessionStore : Bool) : SessionListManager :=
  ⟨[], [], fMaxSessionsAllowed, fCopySessionStore, fun _ => ⟨0, none⟩,
    fun _ => false, fun _ => false, 0, []⟩

end SessionListManager

end Coast
