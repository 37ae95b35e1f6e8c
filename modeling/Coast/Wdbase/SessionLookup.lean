import Coast.Base.JoinedPath
import Coast.Wdbase.SessionLimit

/-!
# Looking a session up

A session is stored under its id as a key and found by its id as a path.
What the characters of an id say as a path is written down first, without the
lookup.  Beside the list stands what was added under every id and is neither
disabled nor removed.
-/

namespace Coast

/-! ## What an id says as a path -/

section

open PartialSteps List

namespace Slots

variable {σ : Type}

/-- The place of an index number, the first one when the `long` overflows to
a negative number. -/
def place (digits : Bytes) : Nat := (Int64.ofNat (digitsValue 10 digits)).toInt.toNat

/-- What stands in front of an id: a key of the list, or the place of one.
A key whose hash is zero is taken with all that follows. -/
def Begins (slots : Slots σ) (id : Bytes) (i : Nat) : PathToken → Prop
  | .key name => slots.findIndex (if keyHash name = 0 then id else name) = some i
  | .index digits => i < slots.length ∧ i = place digits

def Stays (token : PathToken) : Prop := ∃ digits, token = .index digits ∧ place digits = 0

/-- The characters of an id: a key or `:` and the number of a place, and then
any number of indices `:0`. -/
def Spells (slots : Slots σ) (id : Bytes) (i : Nat) : Prop :=
  ∃ token tokens, cstr id = joinTokens (ch '.') (ch ':') (token :: tokens) ∧
    (∀ other ∈ token :: tokens, PathToken.Proper (ch '.') (ch ':') other) ∧
    slots.Begins (cstr id) i token ∧ ∀ other ∈ tokens, Stays other

section

variable (slots : Slots σ)

theorem impl_list : slots.sessionsHeap.impl (some 0) =
    some (.array (slots.mapIdx fun i slot => (slot.1, some (i + 1)))) := rfl

theorem impl_session {i : Nat} (inside : i < slots.length) :
    slots.sessionsHeap.impl (some (i + 1)) = some (.object 0) := by
  show (slots.map fun _ => AnyImpl.object 0)[i]? = _
  rw [getElem?_map, getElem?_eq_getElem inside]
  rfl

theorem doGetAt_toNat (number : Int) :
    AnythingLookup.doGetAt slots.sessionsHeap (some 0) number.toNat =
      AnythingLookup.doGetAt slots.sessionsHeap (some 0) number := by
  rw [AnythingLookup.doGetAt, AnythingLookup.doGetAt, Int.toNat_natCast]

theorem anythingStep_list {token : PathToken} {tokens : List PathToken} (c : Handle)
    (proper : token.Proper (ch '.') (ch ':')) :
    anythingStep slots.sessionsHeap (some 0)
        (token.scanned (tokensText (ch '.') (ch ':') tokens)) = some c ↔
      ∃ i, slots.Begins (joinTokens (ch '.') (ch ':') (token :: tokens)) i token ∧
        c = some (i + 1) := by
  cases token with
  | key name =>
    have whole : (if keyHash name ≠ 0 then
          (name ++ tokensText (ch '.') (ch ':') tokens).take name.length
        else name ++ tokensText (ch '.') (ch ':') tokens) =
        if keyHash name = 0 then name ++ tokensText (ch '.') (ch ':') tokens else name := by
      rw [take_left, ite_not]
    rw [PathToken.scanned, anythingStep_key, findIndex_sessionsHeap, whole, Option.map_eq_some_iff]
    refine exists_congr fun i => and_congr_right fun found => ?_
    rw [doGetAt_list slots (findIndex_lt found)]
    exact eq_comm
  | index digits =>
    have size : slots.sessionsHeap.getSize (some 0) = slots.length := by
      rw [Heap.getSize, impl_list]
      exact length_mapIdx
    rw [PathToken.scanned, lookupNumber_digits proper.2, anythingStep_index, size]
    by_cases inside : place digits < slots.length
    · have get := doGetAt_list slots inside
      rw [place, doGetAt_toNat] at get
      rw [place] at inside
      rw [get, if_pos ⟨by omega, by omega, Option.some_ne_none _⟩, Option.some.injEq]
      constructor
      · rintro rfl
        exact ⟨place digits, ⟨inside, rfl⟩, rfl⟩
      · rintro ⟨i, ⟨_, rfl⟩, rfl⟩
        rfl
    · rw [place] at inside
      rw [if_neg (by omega)]
      refine iff_of_false (Option.some_ne_none c).symm ?_
      rintro ⟨i, ⟨less, rfl⟩, _⟩
      exact inside less

theorem anythingStep_session {i : Nat} (inside : i < slots.length) {token : PathToken}
    (proper : token.Proper (ch '.') (ch ':')) (more : Bytes) (c : Handle) :
    anythingStep slots.sessionsHeap (some (i + 1)) (token.scanned more) = some c ↔
      Stays token ∧ c = some (i + 1) := by
  cases token with
  | key name =>
    rw [PathToken.scanned, anythingStep_key, Heap.findIndex, impl_session slots inside]
    refine iff_of_false (Option.some_ne_none c).symm ?_
    rintro ⟨⟨digits, same, _⟩, _⟩
    cases same
  | index digits =>
    have size : slots.sessionsHeap.getSize (some (i + 1)) = 1 := by
      rw [Heap.getSize, impl_session slots inside]
    have get (number : Int) : AnythingLookup.doGetAt slots.sessionsHeap (some (i + 1)) number =
        some (i + 1) := by
      rw [AnythingLookup.doGetAt, impl_session slots inside]
    rw [PathToken.scanned, lookupNumber_digits proper.2, anythingStep_index, size, get]
    by_cases zero : place digits = 0
    · rw [place] at zero
      rw [if_pos ⟨by omega, by omega, Option.some_ne_none _⟩, Option.some.injEq]
      exact ⟨fun same => ⟨⟨digits, rfl, zero⟩, same.symm⟩, fun both => both.2.symm⟩
    · rw [place] at zero
      rw [if_neg (by omega)]
      refine iff_of_false (Option.some_ne_none c).symm ?_
      rintro ⟨⟨_, same, first⟩, _⟩
      cases same
      exact zero first

theorem follow_session {i : Nat} (inside : i < slots.length) {tokens : List PathToken}
    (proper : ∀ token ∈ tokens, token.Proper (ch '.') (ch ':')) (c : Handle) :
    follow (anythingStep slots.sessionsHeap) (some (i + 1))
        (scannedTokens (ch '.') (ch ':') tokens) = some c ↔
      (∀ token ∈ tokens, Stays token) ∧ c = some (i + 1) := by
  induction tokens with
  | nil =>
    rw [scannedTokens, follow, Option.some.injEq]
    exact ⟨fun same => ⟨forall_mem_nil _, same.symm⟩, fun both => both.2.symm⟩
  | cons token tokens ih =>
    rw [scannedTokens, follow, Option.bind_eq_some_iff, forall_mem_cons]
    constructor
    · rintro ⟨next, stepped, rest⟩
      obtain ⟨stays, rfl⟩ := (anythingStep_session slots inside
        (proper token mem_cons_self) _ next).mp stepped
      obtain ⟨all, same⟩ := (ih (forall_mem_cons.mp proper).2).mp rest
      exact ⟨⟨stays, all⟩, same⟩
    · rintro ⟨⟨stays, all⟩, same⟩
      exact ⟨_, (anythingStep_session slots inside (proper token mem_cons_self) _ _).mpr
        ⟨stays, rfl⟩, (ih (forall_mem_cons.mp proper).2).mpr ⟨all, same⟩⟩

theorem begins_lt {id : Bytes} {i : Nat} {token : PathToken} (begins : slots.Begins id i token) :
    i < slots.length := by
  cases token with
  | key name => exact findIndex_lt begins
  | index digits => exact begins.1

theorem cstr_cstr (id : Bytes) : cstr (cstr id) = cstr id :=
  cstr_of_nulFree (nulFree_cstr id)

/-- An id leads to a session whose place its characters spell. -/
theorem lookupSession_iff (id : Bytes) (s : σ) :
    slots.lookupSession id = some s ↔
      ∃ i, slots.Spells id i ∧ slots[i]?.map Prod.snd = some s := by
  have path : Anything.lookupPath slots.sessionsHeap (some 0) id (ch '.') (ch ':') =
      Anything.lookupPath slots.sessionsHeap (some 0) (cstr id) (ch '.') (ch ':') := by
    rw [Anything.lookupPath, Anything.lookupPath, lookupWith, lookupWith, cstr_cstr]
  have leads : ∀ c, (Anything.lookupPath slots.sessionsHeap (some 0) id (ch '.') (ch ':')).2 =
      some c ↔ ∃ i, slots.Spells id i ∧ c = some (i + 1) := by
    intro c
    rw [path]
    constructor
    · intro found
      obtain ⟨tokens, some', proper, joined⟩ :=
        tokens_of_lookupPath defaultDelimiters (nulFree_cstr id) found
      rw [joined, lookupPath_joinTokens defaultDelimiters _ _ some' proper] at found
      cases tokens with
      | nil => exact absurd rfl some'
      | cons token tokens =>
        rw [scannedTokens, follow] at found
        obtain ⟨next, stepped, rest⟩ := Option.bind_eq_some_iff.mp found
        obtain ⟨i, begins, rfl⟩ := (anythingStep_list slots next
          (proper token mem_cons_self)).mp stepped
        obtain ⟨stays, same⟩ := (follow_session slots (begins_lt slots begins)
          (forall_mem_cons.mp proper).2 c).mp rest
        exact ⟨i, ⟨token, tokens, joined, proper, joined ▸ begins, stays⟩, same⟩
    · rintro ⟨i, ⟨token, tokens, joined, proper, begins, stays⟩, same⟩
      rw [joined] at begins
      rw [joined, lookupPath_joinTokens defaultDelimiters _ _ (cons_ne_nil _ _) proper,
        scannedTokens, follow, Option.bind_eq_some_iff]
      exact ⟨_, (anythingStep_list slots _ (proper token mem_cons_self)).mpr ⟨i, begins, rfl⟩,
        (follow_session slots (begins_lt slots begins)
          (forall_mem_cons.mp proper).2 c).mpr ⟨stays, same⟩⟩
  rw [lookupSession]
  constructor
  · intro found
    split at found
    · rename_i i reached
      obtain ⟨j, spells, same⟩ := (leads _).mp reached
      cases same
      exact ⟨i, spells, found⟩
    · cases found
  · rintro ⟨i, spells, there⟩
    rw [(leads _).mpr ⟨i, spells, rfl⟩]
    exact there

/-- An id without delimiters and NUL spells the place of its key only. -/
theorem spells_plain {id : Bytes} (nonempty : id ≠ []) (nulFree : NulFree id)
    (noSlot : ch '.' ∉ id) (noIndex : ch ':' ∉ id) (i : Nat) :
    slots.Spells id i ↔ slots.findIndex id = some i := by
  rw [Spells, cstr_of_nulFree nulFree]
  constructor
  · rintro ⟨token, tokens, joined, _, begins, stays⟩
    have text : ch ':' ∉ tokensText (ch '.') (ch ':') tokens := by
      intro member
      refine noIndex (joined ▸ ?_)
      cases token with
      | key name => exact mem_append_right _ member
      | index digits => exact mem_cons_of_mem _ (mem_append_right _ member)
    obtain rfl : tokens = [] := by
      cases tokens with
      | nil => rfl
      | cons other tokens =>
        obtain ⟨digits, rfl, _⟩ := stays other mem_cons_self
        exact absurd mem_cons_self text
    cases token with
    | key name =>
      obtain rfl : id = name := joined.trans (append_nil name)
      rwa [Begins, ite_self] at begins
    | index digits => exact absurd (joined ▸ mem_cons_self) noIndex
  · intro found
    refine ⟨.key id, [], (append_nil id).symm, ?_, ?_, nofun⟩
    · intro other member
      rw [mem_singleton.mp member]
      exact ⟨nonempty, nulFree, noSlot, noIndex⟩
    · rwa [Begins, ite_self]

end

end Slots

end

open Runs Option

/-- The list manager and the sessions by their exact ids. -/
structure TracedSessions where
  slm : SessionListManager
  byId : Bytes → Nat → Prop

namespace TracedSessions

def kept (after : SessionListManager) (byId : Bytes → Nat → Prop) : Bytes → Nat → Prop :=
  fun id s => byId id s ∧ (id, s) ∈ after.fSessions

/-- The last session that was added under an id, unless the id is disabled or
the session removed. -/
def note (this : SessionListManager) (move : SessionMove)
    (after : SessionListManager) (byId : Bytes → Nat → Prop) :
    Bytes → Nat → Prop :=
  match move with
  | .disableSession _ id => fun x s => x ≠ id ∧ byId x s
  | .cleanupSessions _ _ => kept after byId
  | .go r _ =>
    match this.requests[r]?.map Request.pc with
    | some (.addSession id s) => fun x t =>
      x = id ∧ t = s ∨ x ≠ id ∧ byId x t
    | some (.cleanupSessions _) => kept after byId
    | _ => byId
  | _ => byId

def step (this : TracedSessions) (move : SessionMove) : Option TracedSessions :=
  (this.slm.step move).map fun after =>
    ⟨after, note this.slm move after this.byId⟩

def new (fMaxSessionsAllowed : Int) (fCopySessionStore : Bool) : TracedSessions :=
  ⟨.new fMaxSessionsAllowed fCopySessionStore, fun _ _ => False⟩

def Stored (this : SessionListManager) (id : Bytes) (s : Nat) : Prop :=
  id ≠ [] ∧ NulFree id ∧ (id, s) ∈ this.fSessions

/-- The characters of an id spell the place of a session. -/
def Spelled (this : SessionListManager) (id : Bytes) (s : Nat) : Prop :=
  ∃ i, this.fSessions.Spells id i ∧ this.fSessions[i]?.map Prod.snd = some s

def SpellsKey (this : SessionListManager) (id : Bytes) : Prop :=
  ∀ s, Spelled this id s ↔ Stored this id s

/-- Ids that sessions are added under are not empty and have no NUL, and
those that are disabled spell the place of what is stored under them. -/
def Meets (this : TracedSessions) : SessionMove → Prop
  | .disableSession _ id => SpellsKey this.slm id
  | .go r _ => ∀ request id s, this.slm.requests[r]? = some request →
      request.pc = .addSession id s → id ≠ [] ∧ NulFree id
  | _ => True

structure ByKey (slm : SessionListManager) (byId : Bytes → Nat → Prop) : Prop where
  keysOk : slm.fSessions.KeysOk
  stored : ∀ id s, byId id s ↔ Stored slm id s

theorem new_byKey (fMaxSessionsAllowed : Int) (fCopySessionStore : Bool) :
    ByKey (.new fMaxSessionsAllowed fCopySessionStore) fun _ _ => False where
  keysOk := ⟨List.nodup_nil, nofun⟩
  stored := fun _ _ => iff_of_false id fun stored => nomatch stored.2.2

section Changes

variable {this after : SessionListManager} {byId : Bytes → Nat → Prop}

variable (byKey : ByKey this byId)
include byKey

theorem ByKey.cleanup (sub : List.Sublist after.fSessions this.fSessions) :
    ByKey after (kept after byId) where
  keysOk := byKey.keysOk.of_sublist ((sub.map Prod.fst).filter _)
  stored := by
    intro id s
    constructor
    · rintro ⟨was, member⟩
      rcases (byKey.stored id s).mp was with ⟨named, nulFree, _⟩
      exact ⟨named, nulFree, member⟩
    · rintro ⟨named, nulFree, member⟩
      exact ⟨(byKey.stored id s).mpr ⟨named, nulFree, sub.subset member⟩, member⟩

theorem ByKey.same (slots : after.fSessions = this.fSessions)
    {byId' : Bytes → Nat → Prop} (ids : ∀ x s, byId' x s ↔ byId x s) :
    ByKey after byId' := by
  refine ⟨?_, fun id s => ?_⟩
  · rw [slots]
    exact byKey.keysOk
  · rw [ids id s, byKey.stored id s, Stored, Stored, slots]

theorem ByKey.add {id : Bytes} {s : Nat} (named : id ≠ []) (nulFree : NulFree id)
    (slots : after.fSessions = this.fSessions.setKey id s) :
    ByKey after fun x t => x = id ∧ t = s ∨ x ≠ id ∧ byId x t where
  keysOk := by
    rw [slots]
    exact byKey.keysOk.setKey nulFree s
  stored := by
    intro x t
    rw [Stored, slots, byKey.keysOk.mem_setKey_iff nulFree named, byKey.stored x t, Prod.mk.injEq]
    constructor
    · rintro (⟨rfl, rfl⟩ | ⟨other, named', nulFree', member⟩)
      · exact ⟨named, nulFree, .inl ⟨rfl, rfl⟩⟩
      · exact ⟨named', nulFree', .inr ⟨other, member⟩⟩
    · rintro ⟨named', nulFree', ⟨rfl, rfl⟩ | ⟨other, member⟩⟩
      · exact .inl ⟨rfl, rfl⟩
      · exact .inr ⟨other, named', nulFree', member⟩

theorem ByKey.disable {id : Bytes} (spells : SpellsKey this id)
    (slots : after.fSessions = this.fSessions ∧ this.fSessions.lookupSession id = none ∨
      ∃ s, this.fSessions.lookupSession id = some s ∧
        after.fSessions = this.fSessions.removeKey id) :
    ByKey after fun x s => x ≠ id ∧ byId x s := by
  have leads : ∀ s, this.fSessions.lookupSession id = some s ↔ Stored this id s :=
    fun s => (this.fSessions.lookupSession_iff id s).trans (spells s)
  rcases slots with ⟨same, missing⟩ | ⟨s, found, removed⟩
  · refine byKey.same same fun x s => and_iff_right_of_imp ?_
    rintro was rfl
    have known := (leads s).mpr ((byKey.stored x s).mp was)
    rw [missing] at known
    cases known
  · rcases (leads s).mp found with ⟨named, nulFree, _⟩
    refine ⟨?_, fun x t => ?_⟩
    · rw [removed]
      exact byKey.keysOk.of_sublist (((Slots.removeKey_sublist _ id).map Prod.fst).filter _)
    · rw [Stored, removed, byKey.keysOk.mem_removeKey_iff nulFree named, byKey.stored x t, Stored]
      exact ⟨fun both => ⟨both.2.1, both.2.2.1, both.1, both.2.2.2⟩,
        fun all => ⟨all.2.2.1, all.1, all.2.1, all.2.2.2⟩⟩

theorem ByKey.note_same {move : SessionMove}
    (slots : after.fSessions = this.fSessions)
    (notAdd : ∀ r timeouts request, move = .go r timeouts →
      this.requests[r]? = some request → ∀ id s, request.pc ≠ .addSession id s)
    (leads : ∀ r id, move = .disableSession r id →
      this.fSessions.lookupSession id = none ∧ SpellsKey this id) :
    ByKey after (note this move after byId) := by
  have sub : List.Sublist after.fSessions this.fSessions := slots ▸ List.Sublist.refl _
  cases move with
  | connect => exact byKey.same slots fun _ _ => Iff.rfl
  | lookupSession r id => exact byKey.same slots fun _ _ => Iff.rfl
  | createSession r id => exact byKey.same slots fun _ _ => Iff.rfl
  | disableSession r id =>
    rcases leads r id rfl with ⟨missing, spells⟩
    exact byKey.disable spells (.inl ⟨slots, missing⟩)
  | cleanupSessions r timeouts => exact byKey.cleanup sub
  | release r => exact byKey.same slots fun _ _ => Iff.rfl
  | go r timeouts =>
    rw [note]
    cases at_ : this.requests[r]? with
    | none => exact byKey.same slots fun _ _ => Iff.rfl
    | some request =>
      rw [map_some]
      split
      · rename_i id s pc
        exact absurd (Option.some.inj pc) (notAdd r timeouts request rfl at_ id s)
      · exact byKey.cleanup sub
      · exact byKey.same slots fun _ _ => Iff.rfl

end Changes

theorem step_byKey (this : TracedSessions) (move : SessionMove)
    (after : TracedSessions) (byKey : ByKey this.slm this.byId)
    (meets : Meets this move) (steps : this.step move = some after) :
    ByKey after.slm after.byId := by
  rcases map_eq_some_iff.mp steps with ⟨slm, moved, rfl⟩
  have change := (SessionListManager.fSessions_step moved).2
  generalize list : slm.fSessions = slots at change
  cases change with
  | same notAdd notDisable =>
    refine byKey.note_same list notAdd ?_
    rintro r id rfl
    exact ⟨notDisable r id rfl, meets⟩
  | @add r timeouts request id s at_ pc =>
    rcases meets request id s at_ pc with ⟨named, nulFree⟩
    have noted := byKey.add named nulFree list
    simp only [note, at_, map_some, pc]
    exact noted
  | disable found => exact byKey.disable meets (.inr ⟨_, found, list⟩)
  | cleanup sub cleans =>
    have kept := byKey.cleanup (list.symm ▸ sub)
    rcases cleans with ⟨r, timeouts, rfl⟩ | ⟨r, timeouts, request, id, rfl, at_, pc⟩
    · exact kept
    · simp only [note, at_, map_some, pc]
      exact kept

/-- `LookupSession` finds the session that was added under the id, unless it
is terminated. -/
def Exact (this : TracedSessions) (r : Nat) (id : Bytes) : Prop :=
  ∀ s, this.slm.lookupSession r id = some s ↔ this.byId id s ∧ this.slm.isTerminated r s = false

/-- Among the sessions that are not terminated the id spells the place of
what is stored under it. -/
def LiveSpellsKey (this : SessionListManager) (r : Nat) (id : Bytes) : Prop :=
  ∀ s, this.isTerminated r s = false → (Spelled this id s ↔ Stored this id s)

theorem lookupSession_eq_some_iff {this : SessionListManager} {r s : Nat} {id : Bytes} :
    this.lookupSession r id = some s ↔
      id ≠ [] ∧ this.fSessions.lookupSession id = some s ∧ this.isTerminated r s = false := by
  rw [SessionListManager.lookupSession]
  by_cases empty : id = []
  · rw [if_pos empty]
    exact iff_of_false nofun fun all => all.1 empty
  · rw [if_neg empty, filter_eq_some_iff, Bool.not_eq_true', and_iff_right empty]

theorem lookupSession_nil (this : SessionListManager) : this.fSessions.lookupSession [] = none := by
  rw [Slots.lookupSession_of_noDelimiter (by decide)]
  rfl

theorem ByKey.exact_iff {this : TracedSessions}
    (byKey : ByKey this.slm this.byId) (r : Nat) (id : Bytes) :
    Exact this r id ↔ LiveSpellsKey this.slm r id := by
  have yields : ∀ s, this.slm.isTerminated r s = false →
      (this.slm.lookupSession r id = some s ↔ this.slm.fSessions.lookupSession id = some s) := by
    intro s alive
    rw [lookupSession_eq_some_iff]
    refine ⟨fun all => all.2.1, fun found => ⟨?_, found, alive⟩⟩
    rintro rfl
    rw [lookupSession_nil] at found
    cases found
  have spelled : ∀ s, this.slm.fSessions.lookupSession id = some s ↔ Spelled this.slm id s :=
    this.slm.fSessions.lookupSession_iff id
  constructor
  · intro exact_ s alive
    rw [← spelled, ← yields s alive, exact_ s, byKey.stored id s, and_iff_left alive]
  · intro leads s
    cases alive : this.slm.isTerminated r s with
    | true =>
      refine iff_of_false ?_ (by simp)
      intro found
      have notTerminated := (lookupSession_eq_some_iff.mp found).2.2
      rw [alive] at notTerminated
      cases notTerminated
    | false =>
      rw [yields s alive, spelled, leads s alive, byKey.stored id s]
      exact (and_iff_left rfl).symm

/-- After a run in which what is added and disabled meets the condition, the
lookup of an id is exact when it spells the place of what is stored under it. -/
theorem new_run_exact_iff (fMaxSessionsAllowed : Int)
    (fCopySessionStore : Bool) {moves : List SessionMove} {last : TracedSessions}
    (along : Along step Meets (new fMaxSessionsAllowed fCopySessionStore) moves)
    (runs : run step (new fMaxSessionsAllowed fCopySessionStore) moves =
      some last) (r : Nat) (id : Bytes) :
    Exact last r id ↔ LiveSpellsKey last.slm r id :=
  ByKey.exact_iff (run_invariant step_byKey
    (new_byKey fMaxSessionsAllowed fCopySessionStore) along runs) r id

/-- An id without delimiters and NUL is one that can be disabled, and its
lookup is exact. -/
theorem spellsKey_plain {this : SessionListManager} (keysOk : this.fSessions.KeysOk) {id : Bytes}
    (nonempty : id ≠ []) (nulFree : NulFree id) (noSlot : ch '.' ∉ id) (noIndex : ch ':' ∉ id) :
    SpellsKey this id := by
  intro s
  rw [Stored, and_iff_right nonempty, and_iff_right nulFree,
    ← keysOk.lookup_eq_some_iff nulFree nonempty, Slots.lookup, bind_eq_some_iff]
  exact exists_congr fun i =>
    and_congr_left' (this.fSessions.spells_plain nonempty nulFree noSlot noIndex i)

theorem new_run_exact_plain (fMaxSessionsAllowed : Int) (fCopySessionStore : Bool)
    {moves : List SessionMove} {last : TracedSessions}
    (along : Along step Meets (new fMaxSessionsAllowed fCopySessionStore) moves)
    (runs : run step (new fMaxSessionsAllowed fCopySessionStore) moves = some last)
    (r : Nat) {id : Bytes} (nonempty : id ≠ []) (nulFree : NulFree id) (noSlot : ch '.' ∉ id)
    (noIndex : ch ':' ∉ id) : Exact last r id := by
  have byKey : ByKey last.slm last.byId :=
    run_invariant step_byKey (new_byKey fMaxSessionsAllowed fCopySessionStore) along runs
  exact (byKey.exact_iff r id).mpr fun s _ =>
    spellsKey_plain byKey.keysOk nonempty nulFree noSlot noIndex s

/-- A session is made under the id `a`. -/
private def madeAsA : List SessionMove :=
  [.connect, .createSession 0 [97], .go 0 fun _ => false,
    .go 0 fun _ => false, .go 0 fun _ => false]

private theorem madeAsA_along : Along step Meets (new 1 false) madeAsA := by
  have goes : ∀ {this : TracedSessions} {request : Request}, this.slm.requests = [request] →
      (∀ id s, request.pc = .addSession id s → id ≠ [] ∧ NulFree id) →
      Meets this (.go 0 fun _ => false) := by
    intro this request requests meets other id s at_ pc
    rw [requests] at at_
    cases at_
    exact meets id s pc
  refine .cons trivial rfl (.cons trivial rfl ?_)
  refine .cons (goes rfl nofun) rfl (.cons (goes rfl nofun) rfl ?_)
  refine .cons (goes rfl ?_) rfl trivial
  rintro id s ⟨⟩
  decide

theorem new_run_exact_iff_madeAsA :
    ∃ last, run step (new 1 false) madeAsA = some last ∧ last.slm.lookupSession 0 [97] = some 0 ∧
      (Exact last 0 [97] ↔ LiveSpellsKey last.slm 0 [97]) :=
  ⟨_, rfl, rfl, new_run_exact_iff 1 false madeAsA_along rfl 0 [97]⟩

/-- The id `:0`, under which nothing was added, leads to the session. -/
theorem not_new_run_exact :
    ¬ ∀ (fMaxSessionsAllowed : Int) (fCopySessionStore : Bool)
        (moves : List SessionMove) (last : TracedSessions),
      run step (new fMaxSessionsAllowed fCopySessionStore) moves =
        some last → ∀ r id, Exact last r id := by
  intro always
  have exact_ := always 1 false madeAsA _ rfl 0 [58, 48] 0
  have found := exact_.mp rfl
  rcases found.1 with ⟨same, _⟩ | ⟨_, none⟩
  · exact absurd same (by decide)
  · exact none

end TracedSessions

end Coast
