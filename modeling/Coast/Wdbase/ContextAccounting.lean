import Coast.Library.Ownership
import Coast.Wdbase.Context

/-!
# Accounting for sessions

The reference count of a session is the number of contexts that have it.  A
lock outlives the context that took it only where the session is given up
under another rule than it was taken under.
-/

namespace Coast

open Function Runs Option

variable {τ σ : Type} [DecidableEq τ] [DecidableEq σ]

/-! ## Changes of sessions -/

namespace Context

theorem take_spec {t : τ} {isDifferent copies : Bool} {session after : Session τ}
    (taken : take t isDifferent copies session = some after) :
    after.fRefCount = session.fRefCount + (if isDifferent then 1 else 0) ∧
      ∀ u, u ≠ t → after.locks u = session.locks u := by
  rw [take] at taken
  rcases bind_eq_some_iff.mp taken with ⟨locked, got, rest⟩
  have count := Session.lock_fRefCount got
  have others : ∀ u, u ≠ t → locked.locks u = session.locks u :=
    fun u other => Session.locks_lock_of_ne other got
  simp only [Option.some.injEq] at rest
  subst rest
  cases isDifferent with
  | true =>
    cases copies with
    | true =>
      refine ⟨?_, fun u other => ?_⟩
      · simp [count]
      · simp [Session.locks_unlock_of_ne other, others u other]
    | false => exact ⟨by simp [count], fun u other => by simp [others u other]⟩
  | false =>
    cases copies with
    | true =>
      refine ⟨?_, fun u other => ?_⟩
      · simp [count]
      · simp [Session.locks_unlock_of_ne other, others u other]
    | false => exact ⟨by simp [count], fun u other => by simp [others u other]⟩

theorem giveUp_spec {t : τ} {copies : Bool} {session after : Session τ}
    (given : giveUp t copies session = some after) :
    after.fRefCount = session.fRefCount - 1 ∧
      after.locks t = session.locks t - (if copies then 0 else 1) ∧
      ∀ u, u ≠ t → after.locks u = session.locks u := by
  rw [giveUp] at given
  rcases map_eq_some_iff.mp given with ⟨locked, got, rfl⟩
  cases copies with
  | true =>
    simp only [if_true] at got
    refine ⟨?_, ?_, fun u other => ?_⟩
    · simp [Session.lock_fRefCount got]
    · simp [Session.locks_lock got]
    · simp [Session.locks_unlock_of_ne other, Session.locks_lock_of_ne other got]
  | false =>
    cases got
    refine ⟨by simp, by simp, fun u other => ?_⟩
    simp [Session.locks_unlock_of_ne other]

omit [DecidableEq τ] in
theorem atSession_spec {sessions after : σ → Session τ} {s : Option σ}
    {change : Session τ → Option (Session τ)}
    (changed : atSession sessions s change = some after) (x : σ) :
    (s = some x → change (sessions x) = some (after x)) ∧ (s ≠ some x → after x = sessions x) := by
  cases s with
  | none =>
    cases changed
    exact ⟨nofun, fun _ => rfl⟩
  | some s =>
    rcases map_eq_some_iff.mp changed with ⟨session, made, rfl⟩
    constructor
    · rintro ⟨⟩
      rw [update_self]
      exact made
    · intro other
      exact update_of_ne (fun same => other (congrArg some same.symm)) _ _

variable {sessions after : σ → Session τ}

theorem atSession_frame {s : Option σ} {change : Session τ → Option (Session τ)} {t : τ}
    (frame : ∀ session session', change session = some session' →
      ∀ u, u ≠ t → session'.locks u = session.locks u)
    (changed : atSession sessions s change = some after) (x : σ) {u : τ}
    (other : u ≠ t) : (after x).locks u = (sessions x).locks u := by
  by_cases here : s = some x
  · exact frame _ _ ((atSession_spec changed x).1 here) u other
  · rw [(atSession_spec changed x).2 here]

/-- What `InitSession` changes. -/
structure Inits (this : Context τ σ) (sessions : σ → Session τ)
    (s : Option σ) (copies : Bool) (next : Context τ σ) (after : σ → Session τ) : Prop where
  thread : next.thread = this.thread
  fSession : next.fSession = s
  counts : ∀ x, (after x).fRefCount = (sessions x).fRefCount +
      (if s = some x then 1 else 0) - (if this.fSession = some x then 1 else 0)
  threads : ∀ x u, u ≠ this.thread → (after x).locks u = (sessions x).locks u
  givenUp : ∀ x, this.fSession = some x → s ≠ some x →
    (after x).locks this.thread = (sessions x).locks this.thread - (if copies then 0 else 1)
  others : ∀ x, this.fSession ≠ some x → s ≠ some x → after x = sessions x

theorem initSession_inits {this next : Context τ σ} {s : Option σ} {answer : Option Bool}
    (inits : this.initSession sessions s answer = some (next, after)) :
    Inits this sessions s (answer.getD this.fCopySessionStore) next after := by
  rw [initSession] at inits
  generalize answer.getD this.fCopySessionStore = copies at inits ⊢
  by_cases same : s = this.fSession
  · subst same
    have nobody : ∀ x, this.fSession = some x →
        this.fSession ≠ some x → False := fun x here other => other here
    have cancels : ∀ x, (sessions x).fRefCount = (sessions x).fRefCount +
          (if this.fSession = some x then 1 else 0) -
          (if this.fSession = some x then 1 else 0) := by
      intro x
      omega
    cases copies with
    | false =>
      simp at inits
      rcases inits with ⟨rfl, rfl⟩
      exact ⟨rfl, rfl, cancels, fun _ _ _ => rfl,
        fun x here other => absurd here other, fun _ _ _ => rfl⟩
    | true =>
      simp only [ne_eq, not_true_eq_false, decide_false, Bool.false_or,
        if_true, Bool.false_eq_true, if_false] at inits
      rcases bind_eq_some_iff.mp inits with ⟨taken, took, rest⟩
      cases rest
      refine ⟨rfl, rfl, ?_, ?_, fun x here other => absurd here other, ?_⟩
      · intro x
        rw [← cancels x]
        by_cases here : this.fSession = some x
        · have spec := take_spec ((atSession_spec took x).1 here)
          simpa using spec.1
        · rw [(atSession_spec took x).2 here]
      · intro x u other
        exact atSession_frame (fun _ _ taken => (take_spec taken).2) took x other
      · intro x _ here
        exact (atSession_spec took x).2 here
  · have differs : decide (s ≠ this.fSession) = true := decide_eq_true same
    simp only [differs, Bool.true_or, if_true] at inits
    rcases bind_eq_some_iff.mp inits with ⟨taken, took, rest⟩
    rcases bind_eq_some_iff.mp rest with ⟨given, gave, last⟩
    cases last
    refine ⟨rfl, rfl, ?_, ?_, ?_, ?_⟩
    · intro x
      by_cases here : s = some x
      · have notOld : this.fSession ≠ some x := fun old => same (here.trans old.symm)
        rw [(atSession_spec gave x).2 notOld, (take_spec ((atSession_spec took x).1 here)).1,
          if_pos here, if_neg notOld]
        simp
      · by_cases old : this.fSession = some x
        · rw [(giveUp_spec ((atSession_spec gave x).1 old)).1,
            (atSession_spec took x).2 here, if_neg here, if_pos old]
          omega
        · rw [(atSession_spec gave x).2 old, (atSession_spec took x).2 here,
            if_neg here, if_neg old]
          omega
    · intro x u other
      rw [atSession_frame (fun _ _ made => (giveUp_spec made).2.2) gave x other]
      exact atSession_frame (fun _ _ made => (take_spec made).2) took x other
    · intro x old here
      rw [(giveUp_spec ((atSession_spec gave x).1 old)).2.1, (atSession_spec took x).2 here]
    · intro x old here
      rw [(atSession_spec gave x).2 old, (atSession_spec took x).2 here]

theorem unlockSession_spec (this : Context τ σ) (sessions : σ → Session τ) (x : σ) (u : τ) :
    ((this.unlockSession sessions).2 x).fRefCount = (sessions x).fRefCount ∧
      ((this.unlockSession sessions).2 x).locks u ≤ (sessions x).locks u := by
  rw [unlockSession]
  cases this.fSession with
  | none => exact ⟨rfl, le_refl _⟩
  | some s =>
    simp only
    split
    case isFalse => exact ⟨rfl, le_refl _⟩
    case isTrue =>
      by_cases here : x = s
      · subst here
        simp only [update_self, Session.unlock_fRefCount, true_and]
        by_cases mine : u = this.thread
        · subst mine
          rw [Session.locks_unlock]
          exact Nat.sub_le _ _
        · rw [Session.locks_unlock_of_ne mine]
      · simp only [update_of_ne here]
        exact ⟨trivial, le_refl _⟩

theorem lockSession_spec {this : Context τ σ}
    (locked : this.lockSession sessions = some after) (x : σ) :
    (after x).fRefCount = (sessions x).fRefCount ∧ (this.fSession ≠ some x → after x = sessions x) ∧
      ∀ u, u ≠ this.thread → (after x).locks u = (sessions x).locks u := by
  rw [lockSession] at locked
  split at locked
  case isFalse =>
    cases locked
    exact ⟨rfl, fun _ => rfl, fun _ _ => rfl⟩
  case isTrue =>
    refine ⟨?_, (atSession_spec locked x).2, fun u other => ?_⟩
    · by_cases here : this.fSession = some x
      · exact Session.lock_fRefCount ((atSession_spec locked x).1 here)
      · rw [(atSession_spec locked x).2 here]
    · exact atSession_frame
        (fun _ _ got v differs => Session.locks_lock_of_ne differs got)
        locked x other

end Context

namespace Contexts

variable {this after : Contexts τ σ} {move : ContextMove τ σ}

def current (context : Option (Context τ σ)) : Option σ := context.bind Context.fSession

omit [DecidableEq τ] [DecidableEq σ] in
@[simp]
theorem current_some (context : Context τ σ) : current (some context) = context.fSession := rfl

omit [DecidableEq τ] in
theorem countP_current {contexts : List (Option (Context τ σ))} {c : Nat}
    {old : Option (Context τ σ)} (at_ : contexts[c]? = some old)
    (entry : Option (Context τ σ)) (s : σ) :
    ((contexts.set c entry).countP fun context =>
        current context = some s) + (if current old = some s then 1 else 0) =
      (contexts.countP fun context => current context = some s) +
        (if current entry = some s then 1 else 0) := by
  have one := Counts.countP_set (fun context => decide (current context = some s)) at_ entry
  simp only [decide_eq_true_eq] at one
  exact one

def Has (this : Contexts τ σ) (t : τ) (s : σ) : Prop :=
  ∃ c context, this.at_ c = some context ∧ context.thread = t ∧ context.fSession = some s

/-- Every context that has a session counts, and a thread has no lock on a
session but for a living context: what a context pushed is not locked any
more when it is destroyed. -/
structure Accounted (this : Contexts τ σ) : Prop where
  counts : ∀ s, (this.sessions s).fRefCount =
    this.contexts.countP fun context => current context = some s
  locks : ∀ t s, 0 < (this.sessions s).locks t → this.Has t s

/-- The move gives the session of the context up, by a rule for its mutex. -/
inductive GivesUp (this : Contexts τ σ) : ContextMove τ σ → Nat → Context τ σ → σ → Bool → Prop
  | push {c : Nat} {context : Context τ σ} {s : σ} {next : Option σ}
      {answer : Option Bool} (at_ : this.at_ c = some context)
      (has : context.fSession = some s) (isDifferent : next ≠ some s) :
      GivesUp this (.push c next answer) c context s (answer.getD context.fCopySessionStore)
  | destroy {c : Nat} {context : Context τ σ} {s : σ}
      (at_ : this.at_ c = some context) (has : context.fSession = some s) :
      GivesUp this (.destroy c) c context s context.fCopySessionStore

/-- A session that a context gives up is locked at most once, and not at all
when the store is copied, or another context of the thread has it too. -/
def Meets (this : Contexts τ σ) (move : ContextMove τ σ) : Prop :=
  ∀ c context s copies, GivesUp this move c context s copies →
    (this.sessions s).locks context.thread ≤ (if copies then 0 else 1) ∨
      ∃ d other, d ≠ c ∧ this.at_ d = some other ∧
        other.thread = context.thread ∧ other.fSession = some s

theorem new_accounted : Accounted (new : Contexts τ σ) := ⟨fun _ => rfl, nofun⟩

omit [DecidableEq τ] [DecidableEq σ] in
theorem at_eq_some_iff {c : Nat} {context : Context τ σ} :
    this.at_ c = some context ↔ this.contexts[c]? = some (some context) :=
  join_eq_some_iff

omit [DecidableEq τ] [DecidableEq σ] in
theorem at_set {c d : Nat} {old : Context τ σ}
    (at_ : this.at_ c = some old) (entry : Option (Context τ σ)) (sessions : σ → Session τ) :
    (⟨this.contexts.set c entry, sessions⟩ : Contexts τ σ).at_ d =
      if d = c then entry else this.at_ d := by
  have inside : c < this.contexts.length :=
    (List.getElem?_eq_some_iff.mp (at_eq_some_iff.mp at_)).choose
  rw [Contexts.at_, List.getElem?_set]
  by_cases here : d = c
  · rw [if_pos here.symm, if_pos (here ▸ inside), if_pos here]
    rfl
  · rw [if_neg (fun same => here same.symm), if_neg here]
    rfl

variable {c : Nat} {old : Context τ σ} {sessions : σ → Session τ}

theorem Accounted.set (accounted : Accounted this) (at_ : this.at_ c = some old)
    (entry : Option (Context τ σ))
    (counts : ∀ x, (sessions x).fRefCount = (this.sessions x).fRefCount +
        (if current entry = some x then 1 else 0) -
        (if old.fSession = some x then 1 else 0))
    (locks : ∀ t x, 0 < (sessions x).locks t →
      (⟨this.contexts.set c entry, sessions⟩ : Contexts τ σ).Has t x) :
    Accounted ⟨this.contexts.set c entry, sessions⟩ := by
  refine ⟨fun x => ?_, locks⟩
  have one := countP_current (at_eq_some_iff.mp at_) entry x
  rw [counts x, accounted.counts x]
  rw [current_some] at one
  dsimp only
  by_cases now : current entry = some x
  · by_cases had : old.fSession = some x
    · rw [if_pos had, if_pos now] at one
      rw [if_pos had, if_pos now]
      omega
    · rw [if_neg had, if_pos now] at one
      rw [if_neg had, if_pos now]
      omega
  · by_cases had : old.fSession = some x
    · rw [if_pos had, if_neg now] at one
      rw [if_pos had, if_neg now]
      omega
    · rw [if_neg had, if_neg now] at one
      rw [if_neg had, if_neg now]
      omega

omit [DecidableEq τ] [DecidableEq σ] in
theorem Has.of_other {c d : Nat} {old other : Context τ σ} {t : τ} {s : σ}
    (at_ : this.at_ c = some old) (entry : Option (Context τ σ))
    (sessions : σ → Session τ) (otherAt : this.at_ d = some other)
    (differs : d ≠ c) (thread : other.thread = t) (has : other.fSession = some s) :
    (⟨this.contexts.set c entry, sessions⟩ : Contexts τ σ).Has t s :=
  ⟨d, other, (at_set at_ entry sessions).trans ((if_neg differs).trans otherAt), thread, has⟩

omit [DecidableEq τ] [DecidableEq σ] in
theorem Has.of_self {c : Nat} {old context : Context τ σ} {s : σ}
    (at_ : this.at_ c = some old) (sessions : σ → Session τ) (has : context.fSession = some s) :
    (⟨this.contexts.set c (some context), sessions⟩ : Contexts τ σ).Has
      context.thread s :=
  ⟨c, context, (at_set at_ _ sessions).trans (if_pos rfl), rfl, has⟩

omit [DecidableEq τ] [DecidableEq σ] in
theorem Has.kept {c : Nat} {old context : Context τ σ} {t : τ} {s : σ}
    (has : this.Has t s) (at_ : this.at_ c = some old) (thread : context.thread = old.thread)
    (session : context.fSession = old.fSession) (sessions : σ → Session τ) :
    (⟨this.contexts.set c (some context), sessions⟩ : Contexts τ σ).Has t s := by
  rcases has with ⟨d, other, otherAt, isThread, isSession⟩
  by_cases here : d = c
  · subst here
    rw [at_] at otherAt
    cases otherAt
    subst isThread
    rw [← thread]
    exact Has.of_self at_ sessions (session.trans isSession)
  · exact Has.of_other at_ _ sessions otherAt here isThread isSession

theorem Accounted.kept (accounted : Accounted this) (at_ : this.at_ c = some old)
    (context : Context τ σ) (thread : context.thread = old.thread)
    (session : context.fSession = old.fSession)
    (counts : ∀ x, (sessions x).fRefCount = (this.sessions x).fRefCount)
    (locks : ∀ t x, 0 < (sessions x).locks t →
      0 < (this.sessions x).locks t ∨ t = old.thread ∧ old.fSession = some x) :
    Accounted ⟨this.contexts.set c (some context), sessions⟩ := by
  refine accounted.set at_ _ (fun x => ?_) (fun t x locked => ?_)
  · rw [counts x, current_some, session]
    omega
  · rcases locks t x locked with before | ⟨rfl, has⟩
    · exact (accounted.locks t x before).kept at_ thread session _
    · rw [← thread]
      exact Has.of_self at_ sessions (session.trans has)

theorem accounted_of_givesUp (accounted : Accounted this) (at_ : this.at_ c = some old)
    (entry : Option (Context τ σ))
    (counts : ∀ x, (sessions x).fRefCount = (this.sessions x).fRefCount +
        (if current entry = some x then 1 else 0) -
        (if old.fSession = some x then 1 else 0))
    (threads : ∀ x u, u ≠ old.thread → (sessions x).locks u = (this.sessions x).locks u)
    (taken : ∀ x, current entry = some x →
      (⟨this.contexts.set c entry, sessions⟩ : Contexts τ σ).Has old.thread x)
    (givenUp : ∀ x, old.fSession = some x → current entry ≠ some x →
      0 < (sessions x).locks old.thread → ∃ d other, d ≠ c ∧ this.at_ d = some other ∧
          other.thread = old.thread ∧ other.fSession = some x)
    (others : ∀ x, old.fSession ≠ some x → current entry ≠ some x → sessions x = this.sessions x) :
    Accounted ⟨this.contexts.set c entry, sessions⟩ := by
  refine accounted.set at_ entry counts ?_
  intro t x locked
  have passOn : ∀ d other, d ≠ c → this.at_ d = some other →
      other.thread = t → other.fSession = some x →
      (⟨this.contexts.set c entry, sessions⟩ : Contexts τ σ).Has t x :=
    fun d other differs otherAt thread has =>
      Has.of_other at_ entry sessions otherAt differs thread has
  by_cases mine : t = old.thread
  · subst mine
    by_cases now : current entry = some x
    · exact taken x now
    · by_cases had : old.fSession = some x
      · rcases givenUp x had now locked with ⟨d, other, differs, rest⟩
        exact passOn d other differs rest.1 rest.2.1 rest.2.2
      · rw [others x had now] at locked
        rcases accounted.locks _ x locked with ⟨d, other, otherAt, rest⟩
        refine passOn d other ?_ otherAt rest.1 rest.2
        intro here
        subst here
        rw [at_] at otherAt
        cases otherAt
        exact had rest.2
  · rw [threads x t mine] at locked
    rcases accounted.locks t x locked with ⟨d, other, otherAt, rest⟩
    refine passOn d other ?_ otherAt rest.1 rest.2
    intro here
    subst here
    rw [at_] at otherAt
    cases otherAt
    exact mine rest.1.symm

theorem push_eq_some {s : Option σ} {answer : Option Bool}
    (steps : this.step (.push c s answer) = some after) :
    ∃ context next sessions, this.at_ c = some context ∧ Context.Inits context this.sessions s
        (answer.getD context.fCopySessionStore) next sessions ∧
      ⟨this.contexts.set c (some next), sessions⟩ = after := by
  rw [step] at steps
  rcases bind_eq_some_iff.mp steps with ⟨context, at_, rest⟩
  rcases bind_eq_some_iff.mp rest with ⟨⟨next, sessions⟩, inits, last⟩
  exact ⟨context, next, sessions, at_, Context.initSession_inits inits, Option.some.inj last⟩

theorem destroy_eq_some (steps : this.step (.destroy c) = some after) :
    ∃ context sessions, this.at_ c = some context ∧ Context.atSession this.sessions context.fSession
        (Context.giveUp context.thread context.fCopySessionStore) = some sessions ∧
      ⟨this.contexts.set c none, sessions⟩ = after := by
  rw [step] at steps
  rcases bind_eq_some_iff.mp steps with ⟨context, at_, rest⟩
  split at rest
  case isTrue =>
    rcases map_eq_some_iff.mp rest with ⟨sessions, given, same⟩
    exact ⟨context, sessions, at_, given, same⟩
  case isFalse => cases rest

theorem step_givesUp {context : Context τ σ} {s : σ} {copies : Bool}
    (steps : this.step move = some after) (givesUp : GivesUp this move c context s copies) :
    (after.sessions s).locks context.thread =
        (this.sessions s).locks context.thread - (if copies then 0 else 1) ∧
      ∃ entry, after.contexts = this.contexts.set c entry ∧ current entry ≠ some s := by
  cases givesUp with
  | push at_ has isDifferent =>
    rcases push_eq_some steps with ⟨old, next, sessions, oldAt, inits, rfl⟩
    rw [at_] at oldAt
    cases oldAt
    refine ⟨inits.givenUp s has isDifferent, some next, rfl, ?_⟩
    rw [current, bind_some, inits.fSession]
    exact isDifferent
  | destroy at_ has =>
    rcases destroy_eq_some steps with ⟨old, sessions, oldAt, given, rfl⟩
    rw [at_] at oldAt
    cases oldAt
    exact ⟨(Context.giveUp_spec ((Context.atSession_spec given s).1 has)).2.1, none, rfl, nofun⟩

/-- A step keeps the accounts when it meets the condition. -/
theorem step_accounted (this : Contexts τ σ) (move : ContextMove τ σ) (after : Contexts τ σ)
    (accounted : Accounted this) (meets : Meets this move) (steps : this.step move = some after) :
    Accounted after := by
  have elsewhere : ∀ {c context s copies}, GivesUp this move c context s copies →
      0 < (after.sessions s).locks context.thread → ∃ d other, d ≠ c ∧ this.at_ d = some other ∧
          other.thread = context.thread ∧ other.fSession = some s := by
    intro c context s copies givesUp locked
    rw [(step_givesUp steps givesUp).1] at locked
    rcases meets c context s copies givesUp with few | others
    · omega
    · exact others
  cases move with
  | create thread =>
    cases steps
    refine ⟨fun s => ?_, fun t s locked => ?_⟩
    · rw [List.countP_append, accounted.counts s]
      rfl
    · rcases accounted.locks t s locked with ⟨d, other, otherAt, rest⟩
      refine ⟨d, other, at_eq_some_iff.mpr ?_, rest⟩
      have at_ := at_eq_some_iff.mp otherAt
      rw [List.getElem?_append_left (List.getElem?_eq_some_iff.mp at_).choose]
      exact at_
  | push c s answer =>
    rcases push_eq_some steps with ⟨old, next, sessions, at_, inits, rfl⟩
    have now : current (some next) = s := inits.fSession
    refine accounted_of_givesUp accounted at_ (some next) ?_ inits.threads ?_ ?_ ?_
    · intro x
      rw [now]
      exact inits.counts x
    · intro x has
      rw [← inits.thread]
      exact Has.of_self at_ sessions has
    · intro x had isDifferent locked
      rw [now] at isDifferent
      exact elsewhere (.push at_ had isDifferent) locked
    · intro x had isDifferent
      rw [now] at isDifferent
      exact inits.others x had isDifferent
  | enterReleaser c =>
    rw [step] at steps
    rcases bind_eq_some_iff.mp steps with ⟨context, at_, rest⟩
    have kept := Context.unlockSession_spec context this.sessions
    generalize context.unlockSession this.sessions = unlocked at rest kept
    rcases unlocked with ⟨wasLockedByMe, sessions⟩
    cases rest
    exact accounted.kept at_
      { context with releasers := wasLockedByMe :: context.releasers }
      rfl rfl (fun x => (kept x context.thread).1)
      fun t x locked => .inl (Nat.lt_of_lt_of_le locked (kept x t).2)
  | leaveReleaser c =>
    rw [step] at steps
    rcases bind_eq_some_iff.mp steps with ⟨context, at_, rest⟩
    split at rest
    · cases rest
    · rename_i wasLockedByMe releasers opened
      rcases map_eq_some_iff.mp rest with ⟨sessions, locked, rfl⟩
      have kept : ∀ x, (sessions x).fRefCount = (this.sessions x).fRefCount ∧
          (context.fSession ≠ some x → sessions x = this.sessions x) ∧
          ∀ u, u ≠ context.thread → (sessions x).locks u = (this.sessions x).locks u := by
        intro x
        split at locked
        · exact Context.lockSession_spec locked x
        · cases locked
          exact ⟨rfl, fun _ => rfl, fun _ _ => rfl⟩
      refine accounted.kept at_ { context with releasers := releasers }
        rfl rfl (fun x => (kept x).1) ?_
      intro t x positive
      by_cases mine : t = context.thread
      · by_cases has : context.fSession = some x
        · exact .inr ⟨mine, has⟩
        · rw [(kept x).2.1 has] at positive
          exact .inl positive
      · rw [(kept x).2.2 t mine] at positive
        exact .inl positive
  | destroy c =>
    rcases destroy_eq_some steps with ⟨old, sessions, at_, given, rfl⟩
    refine accounted_of_givesUp accounted at_ none ?_ ?_ nofun ?_ ?_
    · intro x
      rw [if_neg (show ¬ current none = some x from nofun)]
      by_cases had : old.fSession = some x
      · rw [if_pos had, (Context.giveUp_spec ((Context.atSession_spec given x).1 had)).1]
        omega
      · rw [if_neg had, (Context.atSession_spec given x).2 had]
        omega
    · intro x u other
      exact Context.atSession_frame (fun _ _ made => (Context.giveUp_spec made).2.2) given x other
    · intro x had _ locked
      exact elsewhere (.destroy at_ had) locked
    · intro x had _
      exact (Context.atSession_spec given x).2 had

theorem step_not_accounted (this : Contexts τ σ) (move : ContextMove τ σ) (after : Contexts τ σ)
    (_ : Accounted this) (misses : ¬ Meets this move) (steps : this.step move = some after) :
    ¬ Accounted after := by
  intro accounted
  apply misses
  intro c context s copies givesUp
  rcases step_givesUp steps givesUp with ⟨left, entry, contexts, gone⟩
  by_cases few : (this.sessions s).locks context.thread ≤ (if copies then 0 else 1)
  · exact .inl few
  · have locked : 0 < (after.sessions s).locks context.thread := by
      rw [left]
      omega
    rcases accounted.locks _ s locked with ⟨d, other, otherAt, thread, has⟩
    have at_ : this.at_ c = some context := by
      cases givesUp with
      | push at_ => exact at_
      | destroy at_ => exact at_
    have where_ := at_set (d := d) at_ entry after.sessions
    rw [← contexts] at where_
    rw [show after.at_ d = _ from where_] at otherAt
    by_cases here : d = c
    · rw [if_pos here] at otherAt
      subst otherAt
      exact absurd has gone
    · rw [if_neg here] at otherAt
      exact .inr ⟨d, other, here, otherAt, thread, has⟩

/-- Sessions are accounted for all through a run exactly when every session
is given up as it was taken. -/
theorem new_run_accounted_iff {moves : List (ContextMove τ σ)}
    {last : Contexts τ σ} (runs : run step new moves = some last) :
    Always step Accounted new moves ↔ Along step Meets new moves :=
  always_iff_along step_accounted (fun _ accounted => accounted)
    step_not_accounted new_accounted runs

/-- Two contexts of a thread share a session and a third one copies it. -/
private def threeContexts : List (ContextMove Nat Nat) :=
  [.create 0, .push 0 (some 5) (some false), .create 0,
    .push 1 (some 5) none, .create 0, .push 2 (some 5) (some true),
    .enterReleaser 2, .leaveReleaser 2, .destroy 2, .destroy 0,
    .push 1 none none, .destroy 1]

theorem new_run_accounted_iff_threeContexts :
    ∃ last, run step new threeContexts = some last ∧
      (Always step Accounted new threeContexts ↔ Along step Meets new threeContexts) :=
  ⟨_, rfl, new_run_accounted_iff rfl⟩

/-- A session is pushed to be kept locked and given up to be copied: its
mutex stays locked when there is no context any more. -/
theorem not_new_run_unlocked :
    ¬ ∀ (moves : List (ContextMove Nat Nat)) (last : Contexts Nat Nat),
      run step new moves = some last → (∀ c, last.at_ c = none) →
        ∀ t s, (last.sessions s).locks t = 0 := by
  intro unlocked
  have free := unlocked [.create 0, .push 0 (some 5) (some false),
    .push 0 none (some true), .destroy 0] _ rfl
    (by
      intro c
      cases c with
      | zero => rfl
      | succ c => rfl) 0 5
  exact absurd free (by decide)

end Contexts

end Coast
