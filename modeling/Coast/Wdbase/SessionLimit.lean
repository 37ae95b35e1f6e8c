import Coast.Library.Ownership
import Coast.Wdbase.SessionListManager

/-!
# The session limit

The list grows only when a session is added under a new id.  The size that
lets a session be made is read in an earlier section.
-/

namespace Coast

open Runs Option

/-! ## The size of the list -/

theorem Slots.length_setKey {σ : Type} (slots : Slots σ) (key : Bytes) (value : σ) :
    (slots.setKey key value).length = slots.length + (if slots.isDefined key then 0 else 1) := by
  rw [Slots.setKey, Slots.isDefined]
  cases slots.findIndex key with
  | none => exact List.length_append
  | some i => exact List.length_modify _ _ _

namespace SessionListManager

variable {this after : SessionListManager}

def SameList (this after : SessionListManager) : Prop :=
  after.fMaxSessionsAllowed = this.fMaxSessionsAllowed ∧ after.fSessions = this.fSessions

variable {r : Nat} {request : Request}

theorem initSession_sameList {s : Option Nat}
    {adds : Option (Bytes × Nat)} (steps : this.initSession r request s adds = some after) :
    SameList this after := by
  rw [initSession] at steps
  split at steps
  · rcases bind_eq_some_iff.mp steps with ⟨sessions, _, last⟩
    cases last
    exact ⟨rfl, rfl⟩
  · cases steps
    exact ⟨rfl, rfl⟩

theorem unRef_sameList {saveSession : Nat}
    {adds : Option (Bytes × Nat)} (steps : this.unRef r request saveSession adds = some after) :
    SameList this after := by
  rcases map_eq_some_iff.mp steps with ⟨sessions, _, rfl⟩
  exact ⟨rfl, rfl⟩

theorem intLookupSession_sameList (r : Nat) (request : Request)
    (id : Bytes) : SameList this (this.intLookupSession r request id) := by
  rw [intLookupSession]
  split
  · exact ⟨rfl, rfl⟩
  · exact ⟨rfl, rfl⟩

theorem doMakeSession_sameList (r : Nat) (request : Request) (id : Bytes) (sessionsCount : Int) :
    SameList this (this.doMakeSession r request id sessionsCount) := by
  rw [doMakeSession]
  split
  · exact ⟨rfl, rfl⟩
  · exact ⟨rfl, rfl⟩

theorem makeSession_sameList (r : Nat) (request : Request) (id : Bytes) :
    SameList this (this.makeSession r request id) := by
  rw [makeSession]
  split
  · exact ⟨rfl, rfl⟩
  · exact doMakeSession_sameList r request id _

theorem deleteSessions_sameList
    {sessions2Delete : List Nat} {creates : Option (Bytes × Nat)}
    (steps : this.deleteSessions r request sessions2Delete creates =
      some after) : SameList this after := by
  rw [deleteSessions.eq_def] at steps
  split at steps
  · split at steps
    · cases steps
      exact ⟨rfl, rfl⟩
    · cases steps
  · cases steps
    exact doMakeSession_sameList r request _ _
  · cases steps
    exact ⟨rfl, rfl⟩

theorem cleanupSessions_sublist
    {timeouts : Nat → Bool} {creates : Option Bytes}
    (steps : this.cleanupSessions r request timeouts creates = some after) :
    after.fMaxSessionsAllowed = this.fMaxSessionsAllowed ∧
      List.Sublist after.fSessions this.fSessions := by
  rcases bind_eq_some_iff.mp steps with ⟨active, first, rest⟩
  rcases bind_eq_some_iff.mp rest with ⟨disabled, second, last⟩
  cases last
  exact ⟨rfl, doCleanup_sublist first⟩

/-- What a step does to the list of sessions. -/
inductive ListStep (this : SessionListManager) : SessionMove → Slots Nat → Prop
  | same {move : SessionMove} (notAdd : ∀ r timeouts request,
      move = .go r timeouts → this.requests[r]? = some request →
        ∀ id s, request.pc ≠ .addSession id s)
      (notDisable : ∀ r id, move = .disableSession r id → this.fSessions.lookupSession id = none)
      : ListStep this move this.fSessions
  | add {r : Nat} {timeouts : Nat → Bool} {request : Request} {id : Bytes}
      {s : Nat} (at_ : this.requests[r]? = some request)
      (pc : request.pc = .addSession id s) :
      ListStep this (.go r timeouts) (this.fSessions.setKey id s)
  | disable {r : Nat} {id : Bytes} {s : Nat} (found : this.fSessions.lookupSession id = some s) :
      ListStep this (.disableSession r id) (this.fSessions.removeKey id)
  | cleanup {move : SessionMove} {slots : Slots Nat} (sub : List.Sublist slots this.fSessions)
      (cleans : (∃ r timeouts, move = .cleanupSessions r timeouts) ∨
        ∃ r timeouts request id, move = .go r timeouts ∧ this.requests[r]? = some request ∧
          request.pc = .cleanupSessions id) : ListStep this move slots

theorem SameList.listStep {move : SessionMove} (same : SameList this after)
    (notAdd : ∀ r timeouts request, move = .go r timeouts →
      this.requests[r]? = some request → ∀ id s, request.pc ≠ .addSession id s)
    (notDisable : ∀ r id, move = .disableSession r id → this.fSessions.lookupSession id = none) :
    after.fMaxSessionsAllowed = this.fMaxSessionsAllowed ∧ ListStep this move after.fSessions :=
  ⟨same.1, same.2 ▸ .same notAdd notDisable⟩

theorem fSessions_step {move : SessionMove} (steps : this.step move = some after) :
    after.fMaxSessionsAllowed = this.fMaxSessionsAllowed ∧ ListStep this move after.fSessions := by
  cases move with
  | connect =>
    cases steps
    exact SameList.listStep ⟨rfl, rfl⟩ nofun nofun
  | lookupSession r id =>
    rcases map_eq_some_iff.mp steps with ⟨request, _, rfl⟩
    exact (intLookupSession_sameList r request id).listStep nofun nofun
  | createSession r id =>
    rcases map_eq_some_iff.mp steps with ⟨request, _, rfl⟩
    exact SameList.listStep ⟨rfl, rfl⟩ nofun nofun
  | disableSession r id =>
    rcases map_eq_some_iff.mp steps with ⟨request, _, rfl⟩
    rw [disableSession]
    cases found : this.fSessions.lookupSession id with
    | some s => exact ⟨rfl, .disable found⟩
    | none =>
      refine SameList.listStep ⟨rfl, rfl⟩ nofun ?_
      rintro _ _ ⟨⟩
      exact found
  | cleanupSessions r timeouts =>
    rcases bind_eq_some_iff.mp steps with ⟨request, _, cleaned⟩
    rcases cleanupSessions_sublist cleaned with ⟨limit, sub⟩
    exact ⟨limit, .cleanup sub (.inl ⟨r, timeouts, rfl⟩)⟩
  | release r =>
    rcases map_eq_some_iff.mp steps with ⟨request, _, rfl⟩
    exact SameList.listStep ⟨rfl, rfl⟩ nofun nofun
  | go r timeouts =>
    rcases bind_eq_some_iff.mp steps with ⟨request, at_, goes⟩
    have notAdd : (∀ id s, request.pc ≠ .addSession id s) →
        ∀ r' timeouts' request', SessionMove.go r timeouts = .go r' timeouts' →
          this.requests[r']? = some request' → ∀ id s, request'.pc ≠ .addSession id s := by
      rintro other r' timeouts' request' ⟨⟩ at'
      rw [at_] at at'
      cases at'
      exact other
    rw [goOn] at goes
    cases pc : request.pc with
    | idle =>
      rw [pc] at goes
      cases goes
    | initSession s adds =>
      simp only [pc] at goes
      exact (initSession_sameList goes).listStep (notAdd (by rw [pc]; nofun)) nofun
    | unRef saveSession adds =>
      simp only [pc] at goes
      exact (unRef_sameList goes).listStep (notAdd (by rw [pc]; nofun)) nofun
    | makeSession id =>
      simp only [pc] at goes
      cases goes
      exact (makeSession_sameList r request id).listStep (notAdd (by rw [pc]; nofun)) nofun
    | cleanupSessions id =>
      simp only [pc] at goes
      rcases cleanupSessions_sublist goes with ⟨limit, sub⟩
      exact ⟨limit, .cleanup sub (.inr ⟨r, timeouts, request, id, rfl, at_, pc⟩)⟩
    | deleteSessions sessions2Delete creates =>
      simp only [pc] at goes
      exact (deleteSessions_sameList goes).listStep (notAdd (by rw [pc]; nofun)) nofun
    | addSession id s =>
      simp only [pc] at goes
      cases goes
      exact ⟨rfl, .add at_ pc⟩

def WithinLimit (this : SessionListManager) : Prop :=
  (this.fSessions.length : Int) ≤ this.fMaxSessionsAllowed

/-! ## Sessions that are made and not added yet -/

/-- `CreateSession` has made a session and will add it. -/
def adding : RequestPc → Bool
  | .initSession _ adds => adds.isSome
  | .unRef _ adds => adds.isSome
  | .addSession _ _ => true
  | _ => false

/-- The requests whose limit test is behind them and whose `AddSession` is
not. -/
def between (this : SessionListManager) : Nat :=
  this.requests.countP fun request => adding request.pc

/-- The size that the limit test in the next section of a request looks at:
the one it reads there, or the one that its cleanup has left. -/
def testedSize (this : SessionListManager) (request : Request) : Option Nat :=
  match request.pc with
  | .makeSession _ => some this.fSessions.length
  | .deleteSessions [] (some (_, szActiveAfter)) => some szActiveAfter
  | _ => none

/-- When its limit test lets a request make a session, no other request is
between its test and its `AddSession` and none has added a session since the
size was read, or there is room for all of them. -/
def TestsApart (this : SessionListManager) : SessionMove → Prop
  | .go r _ => ∀ sessionsCount ∈ this.requests[r]?.bind this.testedSize,
      (sessionsCount : Int) < this.fMaxSessionsAllowed →
        this.between = 0 ∧ this.fSessions.length ≤ sessionsCount ∨
          (this.fSessions.length + this.between : Int) < this.fMaxSessionsAllowed
  | _ => True

instance (this : SessionListManager) (move : SessionMove) : Decidable (this.TestsApart move) :=
  match move with
  | .go r _ => inferInstanceAs (Decidable (∀ sessionsCount ∈ this.requests[r]?.bind this.testedSize,
      (sessionsCount : Int) < this.fMaxSessionsAllowed → _ ∧ _ ∨ _))
  | .connect | .lookupSession .. | .createSession .. | .disableSession .. | .cleanupSessions ..
  | .release .. => .isTrue trivial

/-- The sessions in the list and those that will be added. -/
def used (this : SessionListManager) : Nat := this.fSessions.length + this.between

theorem between_set {next : Request} (at_ : this.requests[r]? = some request)
    (goes : after.requests = this.requests.set r next) :
    after.between + (if adding request.pc then 1 else 0) =
      this.between + (if adding next.pc then 1 else 0) := by
  rw [between, goes]
  exact Counts.countP_set (fun request => adding request.pc) at_ next

theorem used_le {next : Request} (at_ : this.requests[r]? = some request)
    (goes : after.requests = this.requests.set r next)
    (shorter : after.fSessions.length ≤ this.fSessions.length)
    (still : adding next.pc = true → adding request.pc = true) : after.used ≤ this.used := by
  have counted := between_set at_ goes
  unfold used
  split at counted <;> split at counted <;> grind

/-- The limit test of the step lets a request make a session. -/
def Makes (this : SessionListManager) (move : SessionMove) (after : SessionListManager) : Prop :=
  ∃ r timeouts request sessionsCount, move = .go r timeouts ∧
    this.requests[r]? = some request ∧ this.testedSize request = some sessionsCount ∧
    (sessionsCount : Int) < this.fMaxSessionsAllowed ∧ after.used = this.used + 1

theorem doMakeSession_used (at_ : this.requests[r]? = some request)
    (idle : adding request.pc = false) (id : Bytes) (sessionsCount : Nat) :
    (this.doMakeSession r request id sessionsCount).used ≤ this.used ∨
      (sessionsCount : Int) < this.fMaxSessionsAllowed ∧
        (this.doMakeSession r request id sessionsCount).used = this.used + 1 := by
  rw [doMakeSession]
  split
  · rename_i room
    refine .inr ⟨room, ?_⟩
    have counted := @between_set this { this.setRequest r { request with
        pc := .initSession (some this.created) (some (id, this.created)) }
      with created := this.created + 1 } r request _ at_ rfl
    rw [idle] at counted
    unfold used
    exact congrArg (this.fSessions.length + ·) counted
  · exact .inl (used_le at_ rfl (Nat.le_refl _) nofun)

theorem at_of_idle (idle : this.idle r = some request) :
    this.requests[r]? = some request ∧ adding request.pc = false := by
  rcases filter_eq_some_iff.mp idle with ⟨at_, pc⟩
  rw [of_decide_eq_true pc]
  exact ⟨at_, rfl⟩

theorem cleanupSessions_used {timeouts : Nat → Bool} {creates : Option Bytes}
    (at_ : this.requests[r]? = some request)
    (steps : this.cleanupSessions r request timeouts creates = some after) :
    after.used ≤ this.used := by
  have shorter := (cleanupSessions_sublist steps).2.length_le
  rcases bind_eq_some_iff.mp steps with ⟨active, first, rest⟩
  rcases bind_eq_some_iff.mp rest with ⟨disabled, second, last⟩
  cases last
  exact used_le at_ rfl shorter nofun

theorem resume_adds (adds : Option (Bytes × Nat)) : adding (resume adds) = adds.isSome := by
  cases adds with
  | none => rfl
  | some made => rfl

theorem goesOnWith_adds (saveSession : Option Nat) (adds : Option (Bytes × Nat)) :
    adding (goesOnWith saveSession adds) = adds.isSome := by
  cases saveSession with
  | none => exact resume_adds adds
  | some saveSession => rfl

theorem goOn_used {timeouts : Nat → Bool} (at_ : this.requests[r]? = some request)
    (goes : this.goOn r request timeouts = some after) :
    after.used ≤ this.used ∨ ∃ sessionsCount, this.testedSize request = some sessionsCount ∧
      (sessionsCount : Int) < this.fMaxSessionsAllowed ∧ after.used = this.used + 1 := by
  obtain ⟨pc, fSession⟩ := request
  cases pc with
  | idle => cases goes
  | initSession s adds =>
    refine .inl ?_
    replace goes : this.initSession r ⟨.initSession s adds, fSession⟩ s adds = some after := goes
    rw [initSession] at goes
    split at goes
    · rcases bind_eq_some_iff.mp goes with ⟨sessions, _, last⟩
      cases last
      refine used_le at_ rfl (Nat.le_refl _) fun still => ?_
      rw [goesOnWith_adds] at still
      exact still
    · cases goes
      refine used_le at_ rfl (Nat.le_refl _) fun still => ?_
      rw [resume_adds] at still
      exact still
  | unRef saveSession adds =>
    rcases map_eq_some_iff.mp goes with ⟨sessions, _, rfl⟩
    refine .inl (used_le at_ rfl (Nat.le_refl _) fun still => ?_)
    rw [resume_adds] at still
    exact still
  | makeSession id =>
    replace goes : some (this.makeSession r ⟨.makeSession id, fSession⟩ id) = some after := goes
    cases goes
    rw [makeSession]
    split
    · exact .inl (used_le at_ rfl (Nat.le_refl _) nofun)
    · rcases doMakeSession_used at_ rfl id this.fSessions.length with fewer | ⟨room, made⟩
      · exact .inl fewer
      · exact .inr ⟨this.fSessions.length, rfl, room, made⟩
  | cleanupSessions id => exact .inl (cleanupSessions_used at_ goes)
  | deleteSessions sessions2Delete creates =>
    replace goes : this.deleteSessions r ⟨.deleteSessions sessions2Delete creates, fSession⟩
      sessions2Delete creates = some after := goes
    rw [deleteSessions.eq_def] at goes
    split at goes
    · split at goes
      · cases goes
        exact .inl (used_le at_ rfl (Nat.le_refl _) nofun)
      · cases goes
    · rename_i id szActiveAfter
      cases goes
      rcases doMakeSession_used at_ rfl id szActiveAfter with fewer | ⟨room, made⟩
      · exact .inl fewer
      · exact .inr ⟨szActiveAfter, rfl, room, made⟩
    · cases goes
      exact .inl (used_le at_ rfl (Nat.le_refl _) nofun)
  | addSession id s =>
    refine .inl ?_
    replace goes : some (this.addSession r ⟨.addSession id s, fSession⟩ id s) = some after := goes
    cases goes
    have counted := @between_set this (this.addSession r ⟨.addSession id s, fSession⟩ id s) r
      _ _ at_ rfl
    have grown := Slots.length_setKey this.fSessions id s
    rw [if_pos (show adding (.addSession id s) = true from rfl),
      if_neg (show ¬ adding RequestPc.idle = true from nofun)] at counted
    show (this.fSessions.setKey id s).length + _ ≤ this.fSessions.length + this.between
    split at grown <;> omega

theorem used_step {move : SessionMove} (steps : this.step move = some after) :
    after.used ≤ this.used ∨ this.Makes move after := by
  cases move with
  | connect =>
    cases steps
    refine .inl (Nat.add_le_add_left (Nat.le_of_eq ?_) _)
    exact List.countP_append.trans (Nat.add_zero _)
  | lookupSession r id =>
    rcases map_eq_some_iff.mp steps with ⟨request, idle, rfl⟩
    refine .inl ?_
    rw [intLookupSession]
    split
    · exact Nat.le_refl _
    · exact used_le (at_of_idle idle).1 rfl (Nat.le_refl _) nofun
  | createSession r id =>
    rcases map_eq_some_iff.mp steps with ⟨request, idle, rfl⟩
    exact .inl (used_le (at_of_idle idle).1 rfl (Nat.le_refl _) nofun)
  | disableSession r id =>
    rcases map_eq_some_iff.mp steps with ⟨request, idle, rfl⟩
    have shorter := (Slots.removeKey_sublist this.fSessions id).length_le
    have still : adding (if request.fSession = this.fSessions.lookupSession id then
        RequestPc.initSession none none else .idle) = true → adding request.pc = true := by
      split <;> exact nofun
    refine .inl ?_
    rw [disableSession]
    split
    · exact used_le (at_of_idle idle).1 rfl shorter still
    · exact used_le (at_of_idle idle).1 rfl (Nat.le_refl _) still
  | cleanupSessions r timeouts =>
    rcases bind_eq_some_iff.mp steps with ⟨request, idle, cleaned⟩
    exact .inl (cleanupSessions_used (at_of_idle idle).1 cleaned)
  | release r =>
    rcases map_eq_some_iff.mp steps with ⟨request, idle, rfl⟩
    exact .inl (used_le (at_of_idle idle).1 rfl (Nat.le_refl _) nofun)
  | go r timeouts =>
    rcases bind_eq_some_iff.mp steps with ⟨request, at_, goes⟩
    rcases goOn_used at_ goes with fewer | ⟨sessionsCount, tested, room, made⟩
    · exact .inl fewer
    · exact .inr ⟨r, timeouts, request, sessionsCount, rfl, at_, tested, room, made⟩

def UsedWithin (this : SessionListManager) : Prop :=
  (this.used : Int) ≤ this.fMaxSessionsAllowed

theorem step_usedWithin (this : SessionListManager) (move : SessionMove)
    (after : SessionListManager) (within : UsedWithin this) (apart : this.TestsApart move)
    (steps : this.step move = some after) : UsedWithin after := by
  unfold UsedWithin at within ⊢
  rw [(fSessions_step steps).1]
  rcases used_step steps with fewer | ⟨r, timeouts, request, sessionsCount, rfl, at_, tested,
    room, made⟩
  · omega
  · have free := apart sessionsCount (by rw [at_]; exact tested) room
    rw [made]
    unfold used
    omega

/-- The list stays within the limit all through a run whose limit tests do
not fall between the test and the `AddSession` of another request. -/
theorem new_run_withinLimit {fMaxSessionsAllowed : Int} (allowed : 0 ≤ fMaxSessionsAllowed)
    (fCopySessionStore : Bool) {moves : List SessionMove} {last : SessionListManager}
    (apart : Along step TestsApart (new fMaxSessionsAllowed fCopySessionStore) moves)
    (runs : run step (new fMaxSessionsAllowed fCopySessionStore) moves = some last) :
    WithinLimit last := by
  have within : UsedWithin last := run_invariant step_usedWithin
    (show UsedWithin (new fMaxSessionsAllowed fCopySessionStore) from allowed) apart runs
  unfold UsedWithin used at within
  unfold WithinLimit
  omega

/-- Two requests create a session one after the other. -/
private def bothCreate : List SessionMove :=
  [.connect, .connect, .createSession 0 [97], .go 0 fun _ => false, .go 0 fun _ => false,
    .createSession 1 [98], .go 0 fun _ => false, .go 1 fun _ => false, .go 1 fun _ => false,
    .go 1 fun _ => false]

theorem new_run_withinLimit_bothCreate :
    ∃ last, run step (new 2 false) bothCreate = some last ∧ last.fSessions.length = 2 ∧
      WithinLimit last := by
  refine ⟨_, rfl, rfl, @new_run_withinLimit 2 (by decide) false bothCreate _ ?_ rfl⟩
  refine .cons trivial rfl (.cons trivial rfl (.cons trivial rfl ?_))
  refine .cons (by decide) rfl (.cons (by decide) rfl (.cons trivial rfl ?_))
  refine .cons (by decide) rfl (.cons (by decide) rfl (.cons (by decide) rfl ?_))
  exact .cons (by decide) rfl trivial

/-- Two requests read the size before one of them adds its session. -/
theorem not_new_run_withinLimit :
    ¬ ∀ (fMaxSessionsAllowed : Int) (fCopySessionStore : Bool)
        (moves : List SessionMove) (last : SessionListManager),
      run step (new fMaxSessionsAllowed fCopySessionStore) moves =
        some last → WithinLimit last := by
  intro always
  have within := always 1 false
    [.connect, .connect, .createSession 0 [97], .createSession 1 [98],
      .go 0 fun _ => false, .go 1 fun _ => false, .go 0 fun _ => false,
      .go 1 fun _ => false, .go 0 fun _ => false, .go 1 fun _ => false] _ rfl
  exact absurd (show (2 : Int) ≤ 1 from within) (by decide)

end SessionListManager

end Coast
