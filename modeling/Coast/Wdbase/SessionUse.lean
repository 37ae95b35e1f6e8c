import Coast.Wdbase.ContextAccounting
import Coast.Wdbase.SessionListManager

/-!
# Sessions that are in use

A request uses a session from the section that finds it on.  The session is
counted later, when it is pushed; in between only the list manager's own
lists speak for it.
-/

namespace Coast

open Function Runs List Option Nat

namespace Request

def pushes (request : Request) : Option Nat :=
  match request.pc with
  | .initSession s _ => s
  | _ => none

def saves (request : Request) : Option Nat :=
  match request.pc with
  | .unRef saveSession _ => some saveSession
  | _ => none

def adds (request : Request) : Option Nat :=
  match request.pc with
  | .initSession _ adds => adds.map Prod.snd
  | .unRef _ adds => adds.map Prod.snd
  | .addSession _ s => some s
  | _ => none

def deletes (request : Request) : List Nat :=
  match request.pc with
  | .deleteSessions sessions2Delete _ => sessions2Delete
  | _ => []

/-- From the section that finds or makes the session to the one that gives
it back. -/
def Uses (request : Request) (s : Nat) : Prop :=
  request.fSession = some s ∨ request.saves = some s ∨ request.pushes = some s

/-- The session that the context has when it has been pushed. -/
def current (request : Request) : Option Nat :=
  match request.pc with
  | .initSession s _ => s
  | _ => request.fSession

theorem uses_of_current {request : Request} {s : Nat}
    (current : request.current = some s) : request.Uses s := by
  rw [Request.current] at current
  split at current
  · rename_i pc
    refine .inr (.inr ?_)
    rw [pushes, pc]
    exact current
  · exact .inl current

def counts (request : Request) (s : Nat) : Int :=
  (if request.fSession = some s then 1 else 0) + (if request.saves = some s then 1 else 0)

end Request

namespace SessionListManager

def NoneDeleted (this : SessionListManager) : Prop :=
  ∀ request ∈ this.requests, ∀ s, request.Uses s → this.deleted s = false

def active (this : SessionListManager) : List Nat := this.fSessions.map Prod.snd

def listed (this : SessionListManager) : List Nat :=
  this.active ++ this.fDisabledSessions.map Prod.snd

/-- The session is deleted, or somebody is about to delete it. -/
def Gone (this : SessionListManager) (s : Nat) : Prop :=
  this.deleted s = true ∨ ∃ request ∈ this.requests, s ∈ request.deletes

def totalCounts (requests : List Request) (s : Nat) : Int :=
  (requests.countP fun request => request.fSession = some s) +
    (requests.countP fun request => request.saves = some s)

/-- Counts are those of the requests; a session that is gone is used by none. -/
structure Inv (this : SessionListManager) : Prop where
  counted : ∀ s, (this.sessions s).fRefCount = totalCounts this.requests s
  listedOnce : this.listed.Nodup
  gone : ∀ s, this.Gone s → s ∉ this.active ∧ ∀ request ∈ this.requests, ¬ request.Uses s
  /-- A session that is going to be added is new to the lists. -/
  added : ∀ request ∈ this.requests, ∀ s, request.adds = some s →
    s ∉ this.listed ∧ request.current = some s
  addedOnce : ∀ (i j : Nat) (request other : Request) (s : Nat),
    this.requests[i]? = some request → this.requests[j]? = some other →
      request.adds = some s → other.adds = some s → i = j
  fresh : ∀ s, this.created ≤ s → s ∉ this.listed ∧ ¬ this.Gone s ∧
    ∀ request ∈ this.requests, ¬ request.Uses s

theorem Inv.noneDeleted {this : SessionListManager} (inv : Inv this) : NoneDeleted this := by
  intro request member s uses
  cases gone : this.deleted s with
  | true => exact absurd uses ((inv.gone s (.inl gone)).2 request member)
  | false => rfl

theorem new_inv (fMaxSessionsAllowed : Int) (fCopySessionStore : Bool) :
    Inv (new fMaxSessionsAllowed fCopySessionStore) where
  counted := fun _ => rfl
  listedOnce := nodup_nil
  gone := by
    rintro s (deleted | ⟨request, member, _⟩)
    · cases deleted
    · cases member
  added := nofun
  addedOnce := nofun
  fresh := by
    intro s _
    refine ⟨nofun, ?_, nofun⟩
    rintro (deleted | ⟨request, member, _⟩)
    · cases deleted
    · cases member

theorem totalCounts_set {requests : List Request} {r : Nat} {old : Request}
    (at_ : requests[r]? = some old) (next : Request) (s : Nat) :
    totalCounts (requests.set r next) s =
      totalCounts requests s + next.counts s - old.counts s := by
  have current := Counts.countP_set
    (fun request : Request => decide (request.fSession = some s)) at_ next
  have saved := Counts.countP_set
    (fun request : Request => decide (request.saves = some s)) at_ next
  simp only [decide_eq_true_eq] at current saved
  rw [totalCounts, totalCounts, Request.counts, Request.counts]
  split at current <;> split at current <;> split at saved <;> split at saved <;> simp_all <;> omega

/-- What a step of one request changes. -/
structure Changes (this after : SessionListManager) (r : Nat) (old next : Request) : Prop where
  requests : after.requests = this.requests.set r next
  counted : ∀ s, (after.sessions s).fRefCount =
    (this.sessions s).fRefCount + next.counts s - old.counts s
  listedOnce : after.listed.Nodup
  listed : ∀ s ∈ after.listed, s ∈ this.listed ∨ old.adds = some s
  active : ∀ s ∈ after.active, s ∈ this.active ∨ old.adds = some s
  created : this.created ≤ after.created
  uses : ∀ s, next.Uses s → old.Uses s ∨ ¬ this.Gone s ∧ s < after.created
  gone : ∀ s, after.Gone s → this.Gone s ∨
    s ∈ this.listed ∧ s ∉ after.active ∧ ∀ request ∈ after.requests, ¬ request.Uses s
  added : ∀ s, next.adds = some s →
    s ∉ after.listed ∧ next.current = some s ∧ (old.adds = some s ∨ this.created ≤ s)

variable {this after : SessionListManager} {r : Nat} {old next : Request}

variable {request : Request}

variable {i : Nat}

theorem Changes.at_ (changes : Changes this after r old next)
    (found : after.requests[i]? = some request) :
    i = r ∧ request = next ∨ i ≠ r ∧ this.requests[i]? = some request := by
  rw [changes.requests, getElem?_set] at found
  by_cases here : r = i
  · rw [if_pos here] at found
    split at found
    · exact .inl ⟨here.symm, (Option.some.inj found).symm⟩
    · cases found
  · rw [if_neg here] at found
    exact .inr ⟨fun same => here same.symm, found⟩

theorem Changes.mem (changes : Changes this after r old next) (member : request ∈ after.requests) :
    request = next ∨ request ∈ this.requests := by
  rw [changes.requests] at member
  exact (mem_or_eq_of_mem_set member).symm

variable {s : Nat}

theorem Inv.uses_of_adds (inv : Inv this)
    (member : request ∈ this.requests) (adds : request.adds = some s) :
    request.Uses s :=
  Request.uses_of_current (inv.added request member s adds).2

theorem Inv.changed (inv : Inv this) (at_ : this.requests[r]? = some old)
    (changes : Changes this after r old next) : Inv after := by
  have oldMember : old ∈ this.requests := mem_of_getElem? at_
  have oldUses : ∀ s, old.adds = some s → old.Uses s := fun s => inv.uses_of_adds oldMember
  refine ⟨?_, changes.listedOnce, ?_, ?_, ?_, ?_⟩
  · intro s
    rw [changes.counted, changes.requests, totalCounts_set at_, inv.counted s]
  · intro s gone
    rcases changes.gone s gone with before | ⟨_, rest⟩
    · have kept := inv.gone s before
      refine ⟨fun member => ?_, fun request member uses => ?_⟩
      · rcases changes.active s member with listed | adds
        · exact kept.1 listed
        · exact kept.2 old oldMember (oldUses s adds)
      · rcases changes.mem member with rfl | other
        · rcases changes.uses s uses with earlier | ⟨notGone, _⟩
          · exact kept.2 old oldMember earlier
          · exact notGone before
        · exact kept.2 request other uses
    · exact rest
  · intro request member s adds
    rcases mem_iff_getElem?.mp member with ⟨i, found⟩
    rcases changes.at_ found with ⟨_, rfl⟩ | ⟨differs, other⟩
    · have kept := changes.added s adds
      exact ⟨kept.1, kept.2.1⟩
    · have kept := inv.added request (mem_of_getElem? other) s adds
      refine ⟨fun listed => ?_, kept.2⟩
      rcases changes.listed s listed with before | oldAdds
      · exact kept.1 before
      · exact differs (inv.addedOnce i r request old s other at_ adds oldAdds)
  · intro i j request other s first second adds adds'
    have noOther : ∀ k u, this.requests[k]? = some u → k ≠ r →
        next.adds = some s → u.adds ≠ some s := by
      intro k u found differs mine theirs
      rcases (changes.added s mine).2.2 with before | new
      · exact differs (inv.addedOnce k r u old s found at_ theirs before)
      · exact (inv.fresh s new).2.2 u (mem_of_getElem? found)
          (inv.uses_of_adds (mem_of_getElem? found) theirs)
    rcases changes.at_ first with ⟨rfl, rfl⟩ | ⟨differs, found⟩
    · rcases changes.at_ second with ⟨rfl, _⟩ | ⟨differs', found'⟩
      · rfl
      · exact absurd adds' (noOther j other found' differs' adds)
    · rcases changes.at_ second with ⟨rfl, rfl⟩ | ⟨differs', found'⟩
      · exact absurd adds (noOther i request found differs adds')
      · exact inv.addedOnce i j request other s found found' adds adds'
  · intro s large
    have kept := inv.fresh s (le_trans changes.created large)
    refine ⟨fun listed => ?_, fun gone => ?_, fun request member uses => ?_⟩
    · rcases changes.listed s listed with before | adds
      · exact kept.1 before
      · exact kept.2.2 old oldMember (oldUses s adds)
    · rcases changes.gone s gone with before | ⟨listed, _⟩
      · exact kept.2.1 before
      · exact kept.1 listed
    · rcases changes.mem member with rfl | other
      · rcases changes.uses s uses with earlier | ⟨_, small⟩
        · exact kept.2.2 old oldMember earlier
        · omega
      · exact kept.2.2 request other uses

structure SameLists (this after : SessionListManager) : Prop where
  fSessions : after.fSessions = this.fSessions
  fDisabledSessions : after.fDisabledSessions = this.fDisabledSessions
  deleted : after.deleted = this.deleted

theorem SameLists.active (same : SameLists this after) : after.active = this.active :=
  congrArg (List.map Prod.snd) same.fSessions

theorem SameLists.listed (same : SameLists this after) : after.listed = this.listed := by
  rw [SessionListManager.listed, SessionListManager.listed, same.active, same.fDisabledSessions]

theorem gone_of_gone (at_ : this.requests[r]? = some old)
    (requests : after.requests = this.requests.set r next) (deleted : after.deleted = this.deleted)
    (deletes : ∀ s ∈ next.deletes, s ∈ old.deletes) (gone : after.Gone s) : this.Gone s := by
  rcases gone with isDeleted | ⟨request, member, delete⟩
  · exact .inl (deleted ▸ isDeleted)
  · rw [requests] at member
    rcases mem_or_eq_of_mem_set member with other | rfl
    · exact .inr ⟨request, other, delete⟩
    · exact .inr ⟨old, mem_of_getElem? at_, deletes s delete⟩

theorem Inv.quiet (inv : Inv this) (at_ : this.requests[r]? = some old)
    (requests : after.requests = this.requests.set r next)
    (same : SameLists this after) (created : this.created ≤ after.created)
    (counted : ∀ s, (after.sessions s).fRefCount =
      (this.sessions s).fRefCount + next.counts s - old.counts s)
    (uses : ∀ s, next.Uses s → old.Uses s ∨ ¬ this.Gone s ∧ s < after.created)
    (deletes : ∀ s ∈ next.deletes, s ∈ old.deletes)
    (adds : ∀ s, next.adds = some s → next.current = some s ∧
      (old.adds = some s ∨ this.created ≤ s)) : Inv after := by
  have oldMember := mem_of_getElem? at_
  refine inv.changed at_ ⟨requests, counted, same.listed ▸ inv.listedOnce,
    fun s member => .inl (same.listed ▸ member),
    fun s member => .inl (same.active ▸ member), created, uses,
    fun s gone => .inl (gone_of_gone at_ requests same.deleted deletes gone),
    ?_⟩
  intro s adding
  rcases adds s adding with ⟨used, before | new⟩
  · exact ⟨same.listed ▸ (inv.added old oldMember s before).1, used, .inl before⟩
  · exact ⟨same.listed ▸ (inv.fresh s new).1, used, .inr new⟩

theorem idle_eq_some (found : this.idle r = some request) :
    this.requests[r]? = some request ∧ request.pc = .idle := by
  rcases filter_eq_some_iff.mp found with ⟨at_, isIdle⟩
  exact ⟨at_, of_decide_eq_true isIdle⟩

section Idle

variable {request : Request} (pc : request.pc = .idle)

include pc

theorem counts_of_idle (s : Nat) :
    request.counts s = if request.fSession = some s then 1 else 0 := by
  rw [Request.counts, Request.saves, pc]
  simp

end Idle

theorem Inv.starts (inv : Inv this) (at_ : this.requests[r]? = some old)
    (pc : old.pc = .idle) (next : RequestPc) (saves : Request.saves ⟨next, old.fSession⟩ = none)
    (uses : ∀ s, Request.pushes ⟨next, old.fSession⟩ = some s → s ∈ this.active)
    (adds : Request.adds ⟨next, old.fSession⟩ = none)
    (deletes : Request.deletes ⟨next, old.fSession⟩ = [])
    (requests : after.requests = this.requests.set r ⟨next, old.fSession⟩)
    (same : SameLists this after) (created : after.created = this.created)
    (sessions : after.sessions = this.sessions) : Inv after := by
  refine inv.quiet at_ requests same (le_of_eq created.symm) ?_ ?_ ?_ ?_
  · intro s
    rw [sessions, counts_of_idle pc, Request.counts, saves]
    simp
  · intro s used
    rcases used with has | saved | pushed
    · exact .inl (.inl has)
    · rw [saves] at saved
      cases saved
    · have listed := uses s pushed
      refine .inr ⟨fun gone => (inv.gone s gone).1 listed, ?_⟩
      rw [created]
      by_contra large
      exact (inv.fresh s (Nat.le_of_not_lt large)).1 (mem_append_left _ listed)
  · rw [deletes]
    exact nofun
  · rw [adds]
    exact nofun

variable {id : Bytes}

theorem lookupSession_mem
    (found : this.lookupSession r id = some s) : s ∈ this.active := by
  rw [lookupSession] at found
  split at found
  · cases found
  · rcases Slots.lookupSession_mem (filter_eq_some_iff.mp found).1 with ⟨key, member⟩
    exact mem_map_of_mem (f := Prod.snd) member

theorem intLookupSession_inv (inv : Inv this) (at_ : this.requests[r]? = some old)
    (pc : old.pc = .idle) (id : Bytes) : Inv (this.intLookupSession r old id) := by
  rw [intLookupSession]
  cases found : this.lookupSession r id with
  | none => exact inv
  | some s =>
    refine inv.starts at_ pc (.initSession (some s) none) rfl ?_ rfl rfl rfl ⟨rfl, rfl, rfl⟩ rfl rfl
    rintro x ⟨⟩
    exact lookupSession_mem found

/-! ## Pushing a session -/

section Resume

variable (adds : Option (Bytes × Nat)) (fSession : Option Nat)

@[simp]
theorem saves_resume : Request.saves ⟨resume adds, fSession⟩ = none := by
  cases adds with
  | none => rfl
  | some add => rfl

@[simp]
theorem pushes_resume : Request.pushes ⟨resume adds, fSession⟩ = none := by
  cases adds with
  | none => rfl
  | some add => rfl

@[simp]
theorem adds_resume : Request.adds ⟨resume adds, fSession⟩ = adds.map Prod.snd := by
  cases adds with
  | none => rfl
  | some add => rfl

@[simp]
theorem deletes_resume : Request.deletes ⟨resume adds, fSession⟩ = [] := by
  cases adds with
  | none => rfl
  | some add => rfl

@[simp]
theorem current_resume : Request.current ⟨resume adds, fSession⟩ = fSession := by
  cases adds with
  | none => rfl
  | some add => rfl

end Resume

section GoesOnWith

variable (saveSession : Option Nat) (adds : Option (Bytes × Nat)) (fSession : Option Nat)

theorem saves_goesOnWith : Request.saves ⟨goesOnWith saveSession adds, fSession⟩ = saveSession := by
  cases saveSession with
  | none => exact saves_resume adds fSession
  | some saveSession => rfl

theorem pushes_goesOnWith : Request.pushes ⟨goesOnWith saveSession adds, fSession⟩ = none := by
  cases saveSession with
  | none => exact pushes_resume adds fSession
  | some saveSession => rfl

theorem adds_goesOnWith :
    Request.adds ⟨goesOnWith saveSession adds, fSession⟩ = adds.map Prod.snd := by
  cases saveSession with
  | none => exact adds_resume adds fSession
  | some saveSession => rfl

theorem deletes_goesOnWith : Request.deletes ⟨goesOnWith saveSession adds, fSession⟩ = [] := by
  cases saveSession with
  | none => exact deletes_resume adds fSession
  | some saveSession => rfl

theorem current_goesOnWith :
    Request.current ⟨goesOnWith saveSession adds, fSession⟩ = fSession := by
  cases saveSession with
  | none => exact current_resume adds fSession
  | some saveSession => rfl

end GoesOnWith

variable {adds : Option (Bytes × Nat)}

theorem initSession_eq_some {s : Option Nat} (steps : this.initSession r old s adds = some after) :
    after.requests = this.requests.set r
        ⟨goesOnWith (if s ≠ old.fSession then old.fSession else none) adds, s⟩ ∧
      SameLists this after ∧ after.created = this.created ∧
      ∀ x, (after.sessions x).fRefCount = (this.sessions x).fRefCount +
        (if s ≠ old.fSession ∧ s = some x then 1 else 0) := by
  rw [initSession] at steps
  split at steps
  case isTrue =>
    rcases bind_eq_some_iff.mp steps with ⟨sessions, took, last⟩
    cases last
    refine ⟨?_, ⟨rfl, rfl, rfl⟩, rfl, ?_⟩
    · simp only [decide_eq_true_eq]
      rfl
    · intro x
      dsimp only
      by_cases here : s = some x
      · rw [(Context.take_spec ((Context.atSession_spec took x).1 here)).1]
        by_cases differs : s ≠ old.fSession
        · rw [if_pos (decide_eq_true differs), if_pos ⟨differs, here⟩]
        · rw [if_neg (by simpa using differs), if_neg (fun both => differs both.1)]
      · rw [if_neg (fun both => here both.2), (Context.atSession_spec took x).2 here, Int.add_zero]
  case isFalse unchanged =>
    have same : s = old.fSession := by
      by_contra differs
      exact unchanged (by rw [decide_eq_true differs]; rfl)
    cases steps
    refine ⟨?_, ⟨rfl, rfl, rfl⟩, rfl, ?_⟩
    · rw [if_neg (not_not_intro same), same]
      rfl
    · intro x
      rw [if_neg (fun both => both.1 same), Int.add_zero]
      rfl

section

variable (inv : Inv this)
include inv

variable (at_ : this.requests[r]? = some old)
include at_

theorem initSession_inv {s : Option Nat} (pc : old.pc = .initSession s adds)
    (steps : this.initSession r old s adds = some after) : Inv after := by
  rcases initSession_eq_some steps with ⟨requests, same, created, counted⟩
  have oldSaves : old.saves = none := by
    rw [Request.saves, pc]
  have oldPushes : old.pushes = s := by
    rw [Request.pushes, pc]
  have oldAdds : old.adds = adds.map Prod.snd := by
    rw [Request.adds, pc]
  have oldCurrent : old.current = s := by
    rw [Request.current, pc]
  refine inv.quiet at_ requests same (le_of_eq created.symm) ?_ ?_ ?_ ?_
  · intro x
    rw [counted x, Request.counts, Request.counts, saves_goesOnWith, oldSaves]
    by_cases differs : s ≠ old.fSession
    · simp [differs]
      omega
    · simp [not_not.mp differs]
  · rintro x (pushed | saved | none)
    · exact .inl (.inr (.inr (oldPushes.trans pushed)))
    · rw [saves_goesOnWith] at saved
      split at saved
      · exact .inl (.inl saved)
      · cases saved
    · rw [pushes_goesOnWith] at none
      cases none
  · rw [deletes_goesOnWith]
    exact nofun
  · intro x adding
    rw [adds_goesOnWith, ← oldAdds] at adding
    refine ⟨?_, .inl adding⟩
    rw [current_goesOnWith, ← oldCurrent]
    exact (inv.added old (mem_of_getElem? at_) x adding).2

theorem unRef_inv {saveSession : Nat} (pc : old.pc = .unRef saveSession adds)
    (steps : this.unRef r old saveSession adds = some after) :
    Inv after := by
  rcases map_eq_some_iff.mp steps with ⟨sessions, gave, rfl⟩
  have oldSaves : old.saves = some saveSession := by
    rw [Request.saves, pc]
  have oldAdds : old.adds = adds.map Prod.snd := by
    rw [Request.adds, pc]
  have oldCurrent : old.current = old.fSession := by
    rw [Request.current, pc]
  have requests : (this.setRequest r { old with pc := resume adds }).requests =
      this.requests.set r ⟨resume adds, old.fSession⟩ := rfl
  refine inv.quiet at_ requests ⟨rfl, rfl, rfl⟩ (le_refl _) ?_ ?_ ?_ ?_
  · intro x
    rw [Request.counts, Request.counts, saves_resume, oldSaves]
    dsimp only
    have nothing : ¬ (none : Option Nat) = some x := nofun
    by_cases here : some saveSession = some x
    · rw [(Context.giveUp_spec ((Context.atSession_spec gave x).1 here)).1, if_pos here,
        if_neg nothing]
      omega
    · rw [(Context.atSession_spec gave x).2 here, if_neg here, if_neg nothing]
      omega
  · rintro x (has | saved | pushed)
    · exact .inl (.inl has)
    · rw [saves_resume] at saved
      cases saved
    · rw [pushes_resume] at pushed
      cases pushed
  · rw [deletes_resume]
    exact nofun
  · intro x adding
    rw [adds_resume, ← oldAdds] at adding
    refine ⟨?_, .inl adding⟩
    rw [current_resume, ← oldCurrent]
    exact (inv.added old (mem_of_getElem? at_) x adding).2

/-! ## Making, adding and disabling -/

variable (oldSaves : old.saves = none)
include oldSaves

theorem Inv.moves (next : RequestPc)
    (saves : Request.saves ⟨next, old.fSession⟩ = none)
    (pushes : Request.pushes ⟨next, old.fSession⟩ = none)
    (adds : Request.adds ⟨next, old.fSession⟩ = none)
    (deletes : Request.deletes ⟨next, old.fSession⟩ = [])
    (requests : after.requests = this.requests.set r ⟨next, old.fSession⟩)
    (same : SameLists this after) (created : after.created = this.created)
    (sessions : after.sessions = this.sessions) : Inv after := by
  refine inv.quiet at_ requests same (le_of_eq created.symm) ?_ ?_ ?_ ?_
  · intro s
    rw [sessions, Request.counts, Request.counts, saves, oldSaves]
    exact (add_sub_cancel_right _ _).symm
  · rintro s (has | saved | pushed)
    · exact .inl (.inl has)
    · rw [saves] at saved
      cases saved
    · rw [pushes] at pushed
      cases pushed
  · rw [deletes]
    exact nofun
  · rw [adds]
    exact nofun

theorem doMakeSession_inv (id : Bytes) (sessionsCount : Int) :
    Inv (this.doMakeSession r old id sessionsCount) := by
  rw [doMakeSession]
  split
  · have requests : (this.setRequest r { old with
        pc := .initSession (some this.created)
          (some (id, this.created)) }).requests =
      this.requests.set r ⟨.initSession (some this.created)
        (some (id, this.created)), old.fSession⟩ := rfl
    refine inv.quiet at_ requests ⟨rfl, rfl, rfl⟩ (le_succ _) ?_ ?_ nofun
      ?_
    · intro s
      rw [Request.counts, Request.counts, oldSaves]
      exact (add_sub_cancel_right _ _).symm
    · rintro s (has | none | pushed)
      · exact .inl (.inl has)
      · cases none
      · have new : this.created = s := Option.some.inj pushed
        subst new
        exact .inr ⟨(inv.fresh _ (le_refl _)).2.1, lt_succ_self _⟩
    · rintro s ⟨⟩
      exact ⟨rfl, .inr (le_refl _)⟩
  · exact inv.moves at_ oldSaves .idle rfl rfl rfl rfl rfl ⟨rfl, rfl, rfl⟩ rfl rfl

theorem makeSession_inv
    (id : Bytes) : Inv (this.makeSession r old id) := by
  rw [makeSession]
  split
  · exact inv.moves at_ oldSaves (.cleanupSessions id) rfl rfl rfl rfl rfl ⟨rfl, rfl, rfl⟩ rfl rfl
  · exact doMakeSession_inv inv at_ oldSaves id _

end

variable {slots : Slots Nat}

theorem lookup_eq_some (found : slots.lookup id = some s) :
    ∃ i key, slots.findIndex id = some i ∧ slots[i]? = some (key, s) := by
  rcases bind_eq_some_iff.mp found with ⟨i, index, at_⟩
  rcases map_eq_some_iff.mp at_ with ⟨slot, here, rfl⟩
  exact ⟨i, slot.1, index, here⟩

theorem perm_cons_eraseIdx {α : Type} {entries : List α}
    {entry : α} (at_ : entries[i]? = some entry) :
    List.Perm entries (entry :: entries.eraseIdx i) := by
  rcases List.getElem?_eq_some_iff.mp at_ with ⟨inside, rfl⟩
  exact (getElem_cons_eraseIdx_perm inside).symm

theorem map_snd_setIndex (slots : Slots Nat) (i s : Nat) :
    (slots.setIndex i s).map Prod.snd = (slots.map Prod.snd).set i s := by
  induction slots generalizing i with
  | nil =>
    cases i with
    | zero => rfl
    | succ i => rfl
  | cons slot slots ih =>
    cases i with
    | zero => rfl
    | succ i =>
      rw [map_cons, set_cons_succ, ← ih i]
      rfl

theorem perm_set {entries : List Nat} {entry : Nat}
    (at_ : entries[i]? = some entry) (s : Nat) :
    List.Perm (entry :: entries.set i s) (s :: entries) := by
  rcases List.getElem?_eq_some_iff.mp at_ with ⟨inside, _⟩
  have put : (entries.set i s)[i]? = some s := by
    rw [getElem?_set_self inside]
  have taken := perm_cons_eraseIdx put
  rw [eraseIdx_set_eq] at taken
  exact ((taken.cons entry).trans (List.Perm.swap s entry _)).trans
    ((perm_cons_eraseIdx at_).symm.cons s)

theorem addSession_listed (r : Nat) (old : Request) (id : Bytes) (s : Nat) :
    List.Perm (this.addSession r old id s).listed (s :: this.listed) ∧
      ∀ x ∈ (this.addSession r old id s).active, x ∈ this.active ∨ x = s := by
  rw [listed, listed, active, active, addSession]
  cases found : this.fSessions.lookup id with
  | none =>
    have absent : this.fSessions.findIndex id = none := by
      have undefined := Slots.isDefined_eq this.fSessions id
      rw [found, Slots.isDefined] at undefined
      exact isNone_iff_eq_none.mp (by simpa using undefined)
    have appended : this.fSessions.setKey id s = this.fSessions ++ [(cstr id, s)] := by
      rw [Slots.setKey, absent]
    simp only [appended, map_append, map_cons, map_nil]
    constructor
    · rw [append_assoc]
      exact perm_middle
    · intro x member
      rcases mem_append.mp member with before | new
      · exact .inl before
      · exact .inr (mem_singleton.mp new)
  | some replaced =>
    rcases lookup_eq_some found with ⟨i, key, index, at_⟩
    have there : (this.fSessions.map Prod.snd)[i]? = some replaced := by
      rw [getElem?_map, at_]
      rfl
    have put : (this.fSessions.setKey id s).map Prod.snd =
        (this.fSessions.map Prod.snd).set i s := by
      rw [Slots.setKey, index]
      exact map_snd_setIndex _ _ _
    simp only [put, Slots.append, map_append, map_cons, map_nil]
    constructor
    · have turned := (perm_set there s).append_right (this.fDisabledSessions.map Prod.snd)
      refine List.Perm.trans ?_ turned
      rw [← append_assoc]
      exact perm_append_singleton _ _
    · intro x member
      exact (mem_or_eq_of_mem_set member)

theorem addSession_inv (inv : Inv this) (at_ : this.requests[r]? = some old)
    (pc : old.pc = .addSession id s) :
    Inv (this.addSession r old id s) := by
  have oldAdds : old.adds = some s := by
    rw [Request.adds, pc]
  have oldSaves : old.saves = none := by
    rw [Request.saves, pc]
  have new := (inv.added old (mem_of_getElem? at_) s oldAdds).1
  have requests : (this.addSession r old id s).requests =
      this.requests.set r ⟨.idle, old.fSession⟩ := rfl
  rcases @addSession_listed this r old id s with ⟨listed, active⟩
  refine inv.changed at_ ⟨requests, ?_, ?_, ?_, ?_, le_refl _, ?_, ?_, nofun⟩
  · intro x
    rw [Request.counts, Request.counts, oldSaves]
    exact (add_sub_cancel_right _ _).symm
  · exact listed.nodup_iff.mpr (nodup_cons.mpr ⟨new, inv.listedOnce⟩)
  · intro x member
    rcases mem_cons.mp (listed.mem_iff.mp member) with rfl | before
    · exact .inr oldAdds
    · exact .inl before
  · intro x member
    rcases active x member with before | rfl
    · exact .inl before
    · exact .inr oldAdds
  · rintro x (has | none | none)
    · exact .inl (.inl has)
    · cases none
    · cases none
  · exact fun x gone => .inl (gone_of_gone at_ requests rfl nofun gone)

/-- `DisableSession` takes the session that it finds out of its slot. -/
def TakesOut (this : SessionListManager) (id : Bytes) : Prop :=
  ∀ s, this.fSessions.lookupSession id = some s → this.fSessions.lookup id = some s

theorem disableSession_inv (inv : Inv this)
    (at_ : this.requests[r]? = some old) (pc : old.pc = .idle)
    (takesOut : TakesOut this id) (steps : this.disableSession r old id = after) : Inv after := by
  rw [disableSession] at steps
  generalize known : (if old.fSession = this.fSessions.lookupSession id then
    RequestPc.initSession none none else .idle) = next at steps
  have quietly : Request.saves ⟨next, old.fSession⟩ = none ∧
      Request.pushes ⟨next, old.fSession⟩ = none ∧
      Request.adds ⟨next, old.fSession⟩ = none ∧
      Request.deletes ⟨next, old.fSession⟩ = [] := by
    rw [← known]
    split
    · exact ⟨rfl, rfl, rfl, rfl⟩
    · exact ⟨rfl, rfl, rfl, rfl⟩
  rcases quietly with ⟨saves, pushes, adds, deletes⟩
  have oldSaves : old.saves = none := by
    rw [Request.saves, pc]
  cases found : this.fSessions.lookupSession id with
  | none =>
    simp only [found] at steps
    subst steps
    exact inv.moves at_ oldSaves next saves pushes adds deletes rfl ⟨rfl, rfl, rfl⟩ rfl rfl
  | some s =>
    simp only [found] at steps
    have requests : after.requests = this.requests.set r ⟨next, old.fSession⟩ := by
      rw [← steps]
      rfl
    have deleted : after.deleted = this.deleted := by
      rw [← steps]
      rfl
    subst steps
    rcases lookup_eq_some (takesOut s found) with ⟨i, key, index, there⟩
    have taken := (perm_cons_eraseIdx there).map Prod.snd
    have removed := Slots.removeKey_of_findIndex index
    have listed : List.Perm this.listed
        ((this.fSessions.removeKey id).map Prod.snd ++
          (this.fDisabledSessions.append s).map Prod.snd) := by
      rw [listed, active, removed, Slots.append, map_append, ← append_assoc]
      exact (taken.append_right _).trans (perm_append_singleton s _).symm
    refine inv.changed at_ ⟨requests, ?_, listed.nodup_iff.mp inv.listedOnce,
      fun x member => .inl (listed.mem_iff.mpr member), ?_, le_refl _,
      ?_, ?_, ?_⟩
    · intro x
      rw [Request.counts, Request.counts, saves, oldSaves]
      exact (add_sub_cancel_right _ _).symm
    · intro x member
      exact .inl (((Slots.removeKey_sublist _ id).map Prod.snd).subset member)
    · rintro x (has | saved | pushed)
      · exact .inl (.inl has)
      · rw [saves] at saved
        cases saved
      · rw [pushes] at pushed
        cases pushed
    · intro x gone
      refine .inl (gone_of_gone at_ requests deleted ?_ gone)
      rw [deletes]
      exact nofun
    · rw [adds]
      exact nofun

/-- What a pass over a list in which every session stands once takes out, and
what becomes of the context. -/
structure Cleaned (copies : Bool) (r : Nat) (timeouts : Nat → Bool) (roleNotRelevant : Bool)
    (slots kept : Slots Nat) (state state' : Cleanup) (out : List Nat) : Prop where
  sessions2Delete : state'.sessions2Delete = state.sessions2Delete ++ out
  deletable : ∀ s ∈ out, s ∈ slots.map Prod.snd ∧
    s ∉ kept.map Prod.snd ∧ isDeletable state r s (roleNotRelevant || timeouts s) = true
  context : state'.fSession = state.fSession ∧ state'.sessions = state.sessions ∨
      ∃ o, state.fSession = some o ∧ o ∈ slots.map Prod.snd ∧ state'.fSession = none ∧
        Context.atSession state.sessions (some o) (Context.giveUp r copies) = some state'.sessions

variable {copies : Bool} {timeouts : Nat → Bool} {roleNotRelevant : Bool}

variable {state : Cleanup}

variable {state' : Cleanup}

theorem Cleaned.others {kept : Slots Nat} {out : List Nat}
    (cleaned : Cleaned copies r timeouts roleNotRelevant slots kept state
      state' out) (elsewhere : s ∉ slots.map Prod.snd) :
    state'.sessions s = state.sessions s := by
  rcases cleaned.context with ⟨_, same⟩ | ⟨o, _, inside, _, gave⟩
  · rw [same]
  · refine (Context.atSession_spec gave s).2 ?_
    rintro ⟨⟩
    exact elsewhere inside

theorem isDeletable_congr
    (same : state'.sessions s = state.sessions s) (isTimeout : Bool) :
    isDeletable state' r s isTimeout = isDeletable state r s isTimeout := by
  rw [isDeletable, isDeletable, same]

theorem doCleanup_cleaned {kept : Slots Nat} (once : (slots.map Prod.snd).Nodup)
    (steps : doCleanup copies r timeouts roleNotRelevant slots state = some (kept, state')) :
    ∃ out, Cleaned copies r timeouts roleNotRelevant slots kept state state' out := by
  induction slots generalizing kept state' with
  | nil =>
    cases steps
    exact ⟨[], (append_nil _).symm, nofun, .inl ⟨rfl, rfl⟩⟩
  | cons slot slots ih =>
    rcases doCleanup_cons steps with ⟨rest, middle, others, turn⟩
    rcases cleanupSlot_eq_some turn with ⟨keeps, context⟩
    rw [map_cons, nodup_cons] at once
    rcases ih once.2 others with ⟨out, cleaned⟩
    have untouched := cleaned.others once.1
    have restSub := (doCleanup_sublist others).map Prod.snd
    have contexts : state'.fSession = state.fSession ∧ state'.sessions = state.sessions ∨
        ∃ o, state.fSession = some o ∧ o ∈ (slot :: slots).map Prod.snd ∧ state'.fSession = none ∧
          Context.atSession state.sessions (some o)
            (Context.giveUp r copies) = some state'.sessions := by
      rcases cleaned.context with ⟨sameSession, same⟩ | ⟨o, has, inside, gone, gave⟩
      · rcases context with ⟨mine, gone, gave⟩ | ⟨keptSession, kept'⟩
        · rw [same] at gave
          exact .inr ⟨slot.2, sameSession ▸ mine, mem_cons_self, gone, gave⟩
        · exact .inl ⟨keptSession.trans sameSession, kept'.trans same⟩
      · rcases context with ⟨mine, _, _⟩ | ⟨keptSession, kept'⟩
        · rw [gone] at mine
          cases mine
        · exact .inr ⟨o, has, mem_cons_of_mem _ inside,
            keptSession.trans gone, gave.trans (congrArg some kept'.symm)⟩
    have wider : ∀ s ∈ out, s ≠ slot.2 ∧ s ∈ (slot :: slots).map Prod.snd ∧ s ∉ rest.map Prod.snd ∧
        isDeletable state r s (roleNotRelevant || timeouts s) = true := by
      intro s member
      rcases cleaned.deletable s member with ⟨inside, missing, may⟩
      refine ⟨?_, mem_cons_of_mem _ inside, missing, may⟩
      rintro rfl
      exact once.1 inside
    rcases keeps with ⟨may, same, deletes⟩ | ⟨same, deletes⟩
    · refine ⟨out ++ [slot.2], ?_, ?_, contexts⟩
      · rw [deletes, cleaned.sessions2Delete, append_assoc]
      · intro s member
        rw [same]
        rcases mem_append.mp member with before | new
        · exact (wider s before).2
        · rw [mem_singleton.mp new]
          refine ⟨mem_cons_self, fun inside =>
            once.1 (restSub.subset inside), ?_⟩
          rw [← isDeletable_congr untouched]
          exact may
    · refine ⟨out, deletes.trans cleaned.sessions2Delete, ?_, contexts⟩
      intro s member
      rcases wider s member with ⟨differs, inside, missing, may⟩
      refine ⟨inside, ?_, may⟩
      rw [same, map_cons, mem_cons]
      exact fun here => here.elim differs missing

theorem isDeletable_iff {isTimeout : Bool} :
    isDeletable state r s isTimeout = true ↔ ((state.sessions s).lock r).isSome = true ∧
        (state.sessions s).fRefCount = 0 ∧ isTimeout = true := by
  rw [isDeletable, Bool.and_eq_true, Bool.and_eq_true, decide_eq_true_iff, and_assoc]

theorem not_counted {requests : List Request}
    (zero : totalCounts requests s = 0) (member : request ∈ requests) :
    request.fSession ≠ some s ∧ request.saves ≠ some s := by
  rw [totalCounts] at zero
  have none : (requests.countP fun request =>
      request.fSession = some s) = 0 := by omega
  have none' : (requests.countP fun request =>
      request.saves = some s) = 0 := by omega
  rw [countP_eq_zero] at none none'
  exact ⟨by simpa using none request member, by simpa using none' request member⟩

/-- No request is about to push a session that the cleanup takes out. -/
def Spares (this : SessionListManager) (r : Nat) (timeouts : Nat → Bool) : Prop :=
  ∀ request ∈ this.requests, ∀ s, request.pushes = some s →
    (this.sessions s).fRefCount = 0 → this.canLock r s = true →
      (s ∈ this.active → timeouts s = false) ∧ s ∉ this.fDisabledSessions.map Prod.snd

theorem cleanupSessions_eq_some (inv : Inv this) {creates : Option Bytes}
    (steps : this.cleanupSessions r old timeouts creates = some after) :
    ∃ out fSession, after.requests = this.requests.set r
        ⟨.deleteSessions out
          (creates.map fun id => (id, after.fSessions.length)), fSession⟩ ∧
      after.deleted = this.deleted ∧ after.created = this.created ∧
      List.Sublist after.active this.active ∧
      List.Sublist after.listed this.listed ∧
      (∀ s ∈ out, s ∈ this.listed ∧ s ∉ after.active ∧
        this.canLock r s = true ∧ (this.sessions s).fRefCount = 0 ∧
        (s ∈ this.active ∧ timeouts s = true ∨ s ∈ this.fDisabledSessions.map Prod.snd)) ∧
      (fSession = old.fSession ∧ after.sessions = this.sessions ∨
        ∃ o, old.fSession = some o ∧ fSession = none ∧ Context.atSession this.sessions (some o)
            (Context.giveUp r this.fCopySessionStore) = some after.sessions) := by
  rcases bind_eq_some_iff.mp steps with ⟨⟨first, state⟩, active, rest⟩
  rcases bind_eq_some_iff.mp rest with ⟨⟨second, state'⟩, disabled, last⟩
  cases last
  rcases nodup_append.mp inv.listedOnce with ⟨once, once', apart⟩
  rcases doCleanup_cleaned once active with ⟨out, cleaned⟩
  rcases doCleanup_cleaned once' disabled with ⟨out', cleaned'⟩
  have notActive : ∀ s ∈ this.fDisabledSessions.map Prod.snd, s ∉ this.active :=
    fun s inside here => apart s here s inside rfl
  have firstSub := (doCleanup_sublist active).map Prod.snd
  have secondSub := (doCleanup_sublist disabled).map Prod.snd
  refine ⟨state'.sessions2Delete, state'.fSession, rfl, rfl, rfl, firstSub,
    firstSub.append secondSub, ?_, ?_⟩
  · intro s member
    rw [cleaned'.sessions2Delete, cleaned.sessions2Delete] at member
    rcases mem_append.mp member with before | member
    · rcases cleaned.deletable s before with ⟨inside, missing, may⟩
      rcases isDeletable_iff.mp may with ⟨free, zero, isTimeout⟩
      exact ⟨mem_append_left _ inside, missing, free, zero, .inl ⟨inside, isTimeout⟩⟩
    · rcases cleaned'.deletable s member with ⟨inside, missing, may⟩
      rw [isDeletable_congr (cleaned.others (notActive s inside))] at may
      rcases isDeletable_iff.mp may with ⟨free, zero, _⟩
      exact ⟨mem_append_right _ inside,
        fun here => notActive s inside (firstSub.subset here), free, zero,
        .inr inside⟩
  · rcases cleaned.context with ⟨sameSession, same⟩ | ⟨o, has, _, gone, gave⟩
    · rcases cleaned'.context with ⟨sameSession', same'⟩ | ⟨o, has, _, gone, gave⟩
      · exact .inl ⟨sameSession'.trans sameSession, same'.trans same⟩
      · rw [same] at gave
        exact .inr ⟨o, sameSession.symm.trans has, gone, gave⟩
    · rcases cleaned'.context with ⟨sameSession', same'⟩ | ⟨o', has', _⟩
      · exact .inr ⟨o, has, sameSession'.trans gone, gave.trans (congrArg some same'.symm)⟩
      · rw [gone] at has'
        cases has'

theorem cleanupSessions_inv (inv : Inv this) (at_ : this.requests[r]? = some old)
    (oldSaves : old.saves = none) {creates : Option Bytes} (spares : Spares this r timeouts)
    (steps : this.cleanupSessions r old timeouts creates = some after) :
    Inv after := by
  rcases cleanupSessions_eq_some inv steps with
    ⟨out, fSession, requests, deleted, created, active, listed, taken, context⟩
  have kept : ∀ s, fSession = some s → old.fSession = some s := by
    intro s has
    rcases context with ⟨same, _⟩ | ⟨o, _, gone, _⟩
    · rw [← same]
      exact has
    · rw [gone] at has
      cases has
  refine inv.changed at_ ⟨requests, ?_, listed.nodup inv.listedOnce,
    fun s member => .inl (listed.subset member),
    fun s member => .inl (active.subset member),
    le_of_eq created.symm, ?_, ?_, nofun⟩
  · intro x
    rw [Request.counts, Request.counts, oldSaves,
      show Request.saves ⟨.deleteSessions out _, fSession⟩ = none from rfl]
    have nothing : ¬ (none : Option Nat) = some x := nofun
    rcases context with ⟨rfl, same⟩ | ⟨o, had, rfl, gave⟩
    · rw [same]
      exact (add_sub_cancel_right _ _).symm
    · by_cases here : some o = some x
      · rw [(Context.giveUp_spec ((Context.atSession_spec gave x).1 here)).1, had, if_pos here,
          if_neg nothing]
        omega
      · rw [(Context.atSession_spec gave x).2 here, had, if_neg here, if_neg nothing]
        omega
  · rintro s (has | none | none)
    · exact .inl (.inl (kept s has))
    · cases none
    · cases none
  · rintro s (isDeleted | ⟨request, member, delete⟩)
    · exact .inl (.inl (deleted ▸ isDeleted))
    · rw [requests] at member
      rcases mem_or_eq_of_mem_set member with other | rfl
      · exact .inl (.inr ⟨request, other, delete⟩)
      · rcases taken s delete with ⟨inside, missing, free, zero, cause⟩
        refine .inr ⟨inside, missing, ?_⟩
        have uncounted : ∀ u ∈ this.requests, u.fSession ≠ some s ∧ u.saves ≠ some s :=
          fun u => not_counted ((inv.counted s).symm.trans zero)
        intro u memberU used
        rw [requests] at memberU
        rcases mem_or_eq_of_mem_set memberU with other | rfl
        · rcases used with has | saved | pushed
          · exact (uncounted u other).1 has
          · exact (uncounted u other).2 saved
          · have spared := spares u other s pushed zero free
            rcases cause with ⟨inActive, isTimeout⟩ | inDisabled
            · rw [spared.1 inActive] at isTimeout
              cases isTimeout
            · exact spared.2 inDisabled
        · rcases used with has | none | none
          · exact (uncounted old (mem_of_getElem? at_)).1 (kept s has)
          · cases none
          · cases none

theorem deleteSessions_inv (inv : Inv this)
    (at_ : this.requests[r]? = some old) {sessions2Delete : List Nat}
    {creates : Option (Bytes × Nat)} (pc : old.pc = .deleteSessions sessions2Delete creates)
    (steps : this.deleteSessions r old sessions2Delete creates = some after) : Inv after := by
  have oldSaves : old.saves = none := by
    rw [Request.saves, pc]
  have oldDeletes : old.deletes = sessions2Delete := by
    rw [Request.deletes, pc]
  have oldMember := mem_of_getElem? at_
  cases sessions2Delete with
  | nil =>
    cases creates with
    | none =>
      cases steps
      exact inv.moves at_ oldSaves .idle rfl rfl rfl rfl rfl ⟨rfl, rfl, rfl⟩ rfl rfl
    | some create =>
      cases steps
      exact doMakeSession_inv inv at_ oldSaves _ _
  | cons s sessions2Delete =>
    rw [deleteSessions] at steps
    split at steps
    case isFalse => cases steps
    case isTrue =>
      cases steps
      refine inv.changed at_ ⟨rfl, ?_, inv.listedOnce,
        fun _ member => .inl member, fun _ member => .inl member,
        le_refl _, ?_, ?_, nofun⟩
      · intro x
        rw [Request.counts, Request.counts, oldSaves]
        exact (add_sub_cancel_right _ _).symm
      · rintro x (has | none | none)
        · exact .inl (.inl has)
        · cases none
        · cases none
      · rintro x (isDeleted | ⟨request, member, delete⟩)
        · by_cases here : x = s
          · refine .inl (.inr ⟨old, oldMember, ?_⟩)
            rw [oldDeletes, here]
            exact mem_cons_self
          · have known : update this.deleted s true x = true := isDeleted
            rw [update_of_ne here] at known
            exact .inl (.inl known)
        · rcases mem_or_eq_of_mem_set member with other | rfl
          · exact .inl (.inr ⟨request, other, delete⟩)
          · refine .inl (.inr ⟨old, oldMember, ?_⟩)
            rw [oldDeletes]
            exact mem_cons_of_mem _ delete

/-- The cleanups spare what is about to be pushed, and a session is disabled
under the key that it is stored under. -/
def Meets (this : SessionListManager) : SessionMove → Prop
  | .disableSession _ id => TakesOut this id
  | .cleanupSessions r timeouts => Spares this r timeouts
  | .go r timeouts => ∀ request id, this.requests[r]? = some request →
      request.pc = .cleanupSessions id → Spares this r timeouts
  | _ => True

theorem goOn_inv (inv : Inv this) (at_ : this.requests[r]? = some old)
    (spares : ∀ id, old.pc = .cleanupSessions id → Spares this r timeouts)
    (steps : this.goOn r old timeouts = some after) : Inv after := by
  rw [goOn] at steps
  cases pc : old.pc with
  | idle =>
    rw [pc] at steps
    cases steps
  | initSession s adds =>
    simp only [pc] at steps
    exact initSession_inv inv at_ pc steps
  | unRef saveSession adds =>
    simp only [pc] at steps
    exact unRef_inv inv at_ pc steps
  | makeSession id =>
    simp only [pc] at steps
    cases steps
    exact makeSession_inv inv at_ (by rw [Request.saves, pc]) id
  | cleanupSessions id =>
    simp only [pc] at steps
    exact cleanupSessions_inv inv at_ (by rw [Request.saves, pc]) (spares id pc) steps
  | deleteSessions sessions2Delete creates =>
    simp only [pc] at steps
    exact deleteSessions_inv inv at_ pc steps
  | addSession id s =>
    simp only [pc] at steps
    cases steps
    exact addSession_inv inv at_ pc

/-- A step that meets the condition keeps sessions that are used. -/
theorem step_inv (this : SessionListManager) (move : SessionMove)
    (after : SessionListManager) (inv : Inv this) (meets : Meets this move)
    (steps : this.step move = some after) : Inv after := by
  cases move with
  | connect =>
    cases steps
    have members : ∀ request ∈ this.requests ++ [⟨.idle, none⟩],
        request ∈ this.requests ∨ request = ⟨.idle, none⟩ :=
      fun request member => (mem_append.mp member).imp_right mem_singleton.mp
    have unused : ∀ s, ¬ Request.Uses ⟨.idle, none⟩ s := by
      rintro s (none | none | none)
      · cases none
      · cases none
      · cases none
    have gone : ∀ s, Gone { this with
        requests := this.requests ++ [⟨.idle, none⟩] } s → this.Gone s := by
      rintro s (isDeleted | ⟨request, member, delete⟩)
      · exact .inl isDeleted
      · rcases members request member with other | rfl
        · exact .inr ⟨request, other, delete⟩
        · cases delete
    refine ⟨?_, inv.listedOnce, ?_, ?_, ?_, ?_⟩
    · intro s
      rw [totalCounts, countP_append, countP_append]
      exact inv.counted s
    · intro s isGone
      refine ⟨(inv.gone s (gone s isGone)).1, ?_⟩
      intro request member used
      rcases members request member with other | rfl
      · exact (inv.gone s (gone s isGone)).2 request other used
      · exact unused s used
    · intro request member s adds
      rcases members request member with other | rfl
      · exact inv.added request other s adds
      · cases adds
    · intro i j request other s first second adds adds'
      have inside : ∀ (k : Nat) (u : Request), (this.requests ++ [⟨.idle, none⟩])[k]? =
          some u → u.adds = some s → this.requests[k]? = some u := by
        intro k u found adding
        rw [getElem?_append] at found
        split at found
        · exact found
        · rw [mem_singleton.mp (mem_of_getElem? found)] at adding
          cases adding
      exact inv.addedOnce i j request other s (inside i request first adds)
        (inside j other second adds') adds adds'
    · intro s large
      rcases inv.fresh s large with ⟨unlisted, notGone, notUsed⟩
      refine ⟨unlisted, fun isGone => notGone (gone s isGone), ?_⟩
      intro request member used
      rcases members request member with other | rfl
      · exact notUsed request other used
      · exact unused s used
  | lookupSession r id =>
    rcases map_eq_some_iff.mp steps with ⟨request, found, rfl⟩
    rcases idle_eq_some found with ⟨at_, pc⟩
    exact intLookupSession_inv inv at_ pc id
  | createSession r id =>
    rcases map_eq_some_iff.mp steps with ⟨request, found, rfl⟩
    rcases idle_eq_some found with ⟨at_, pc⟩
    exact inv.moves at_ (by rw [Request.saves, pc]) (.makeSession id) rfl
      rfl rfl rfl rfl ⟨rfl, rfl, rfl⟩ rfl rfl
  | disableSession r id =>
    rcases map_eq_some_iff.mp steps with ⟨request, found, same⟩
    rcases idle_eq_some found with ⟨at_, pc⟩
    exact disableSession_inv inv at_ pc meets same
  | cleanupSessions r timeouts =>
    rcases bind_eq_some_iff.mp steps with ⟨request, found, cleaned⟩
    rcases idle_eq_some found with ⟨at_, pc⟩
    exact cleanupSessions_inv inv at_ (by rw [Request.saves, pc]) meets cleaned
  | release r =>
    rcases map_eq_some_iff.mp steps with ⟨request, found, rfl⟩
    rcases idle_eq_some found with ⟨at_, pc⟩
    exact inv.moves at_ (by rw [Request.saves, pc])
      (.initSession none none) rfl rfl rfl rfl rfl ⟨rfl, rfl, rfl⟩ rfl rfl
  | go r timeouts =>
    rcases bind_eq_some_iff.mp steps with ⟨request, at_, goes⟩
    exact goOn_inv inv at_ (fun id => meets request id at_) goes

/-- In every run whose steps meet the condition no session is deleted while a
request uses it. -/
theorem new_run_noneDeleted (fMaxSessionsAllowed : Int)
    (fCopySessionStore : Bool) {moves : List SessionMove} {last : SessionListManager}
    (along : Along step Meets (new fMaxSessionsAllowed fCopySessionStore) moves)
    (runs : run step (new fMaxSessionsAllowed fCopySessionStore) moves =
      some last) : NoneDeleted last :=
  (run_invariant step_inv (new_inv fMaxSessionsAllowed fCopySessionStore) along runs).noneDeleted

/-- Session 0 is made under the id `a` and given back. -/
private def madeAndReleased : List SessionMove :=
  [.connect, .createSession 0 [97], .go 0 fun _ => false,
    .go 0 fun _ => false, .go 0 fun _ => false, .release 0,
    .go 0 fun _ => false, .go 0 fun _ => false]

/-- The session is given back, and deleted afterwards. -/
theorem new_run_noneDeleted_madeAndReleased :
    ∃ last, run step (new 1 false) (madeAndReleased ++
        [.cleanupSessions 0 fun _ => true, .go 0 fun _ => false]) =
          some last ∧ last.deleted 0 = true ∧ NoneDeleted last := by
  have along : Along step Meets (new 1 false) (madeAndReleased ++
      [.cleanupSessions 0 fun _ => true, .go 0 fun _ => false]) := by
    have goes : ∀ {this : SessionListManager} {next : RequestPc}
        {fSession : Option Nat},
        this.requests = [⟨next, fSession⟩] →
        (∀ id, next ≠ .cleanupSessions id) →
        Meets this (.go 0 fun _ => false) := by
      intro this next fSession requests other request id at_ pc
      rw [requests] at at_
      cases at_
      exact absurd pc (other id)
    refine .cons trivial rfl (.cons trivial rfl ?_)
    refine .cons (goes rfl nofun) rfl (.cons (goes rfl nofun) rfl ?_)
    refine .cons (goes rfl nofun) rfl (.cons trivial rfl ?_)
    refine .cons (goes rfl nofun) rfl (.cons (goes rfl nofun) rfl ?_)
    refine .cons ?_ rfl (.cons (goes rfl nofun) rfl trivial)
    intro request member s pushes
    rw [mem_singleton.mp member] at pushes
    cases pushes
  exact ⟨_, rfl, rfl, new_run_noneDeleted 1 false along rfl⟩

/-- A request pushes the session that it has looked up after a cleanup has
taken it out of the lists and before it is deleted. -/
theorem not_new_run_noneDeleted :
    ¬ ∀ (fMaxSessionsAllowed : Int) (fCopySessionStore : Bool)
        (moves : List SessionMove) (last : SessionListManager),
      run step (new fMaxSessionsAllowed fCopySessionStore) moves =
        some last → NoneDeleted last := by
  intro always
  have kept := always 10 true (madeAndReleased ++ [SessionMove.connect, .connect,
    .lookupSession 1 [97], .disableSession 2 [97],
    .cleanupSessions 2 fun _ => false, .go 1 fun _ => false,
    .go 2 fun _ => false]) _ rfl
  exact absurd (kept ⟨.idle, some 0⟩ (by decide) 0 (.inl rfl)) (by decide)

end SessionListManager

end Coast
