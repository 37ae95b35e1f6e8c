import Coast.Ldap.LDAPConnectionManager
import Coast.Library.Ownership
import Mathlib.Algebra.Ring.Nat

/-!
# Tokens and slots of the LDAP pools

A thread that got a token gets a slot, and gives the token back with it, as
long as its limit lets it see a free slot and, later, its own.  A thread whose
wait fails goes on without a token.
-/

namespace Coast

open Function Runs Option

namespace LdapPc

def HasSlot (slot : Option Nat) : LdapPc → Prop
  | .idle | .lookupSema .. | .acquire .. | .getUnusedFreeListEntry .. =>
    slot = none
  | .lockSlot l _ | .getHandleInfo l _ | .unlockSlot l
  | .clearFreeListEntry l => slot = some l
  | _ => slot.isSome

end LdapPc

namespace LdapPool

variable {ι : Type}

def count (this : LdapPool ι) : Nat := (this.sema.map Prod.fst).getD 0

def initial (this : LdapPool ι) : Nat := (this.sema.map Prod.snd).getD 0

def held (this : LdapPool ι) [Fintype ι] : Nat := ∑ t, (this.clients t).pc.hasToken.toNat

/-- The semaphore and the threads have all tokens, a completed call has got a
slot, and each slot is one thread's. -/
structure Sound (this : LdapPool ι) [Fintype ι] : Prop where
  tokens : this.count + this.held = this.initial
  slots : ∀ t, (this.clients t).pc.completed = true → (this.clients t).slot.isSome
  apart : ∀ t t' l, (this.clients t).slot = some l → (this.clients t').slot = some l → t = t'
  owned : ∀ t l, (this.clients t).slot = some l → this.fFreeList l = some t ∧
    ((this.clients t).pc.locked = true → this.mutexes l = some (some t))

/-- No wait for the semaphore fails, the first thread's limit is one that a
semaphore can count, and a thread that looks for a free slot, or for its own to
release it, has one below its limit. -/
def Meets (this : LdapPool ι) (me : ι) : LdapMove → Prop
  | .acquireFails => False
  | .go _ =>
    match (this.clients me).pc with
    | .lookupSema maxConnections _ =>
      this.sema = none → maxConnections % 2 ^ 32 < 2 ^ 31
    | .getUnusedFreeListEntry maxConnections _ =>
      ∃ l < maxConnections, this.fFreeList l = none
    | .releaseHandleInfo maxConnections =>
      ∃ l < maxConnections, this.fFreeList l = some me
    | _ => True
  | _ => True

/-- The free list and the mutexes say the same as the threads. -/
structure Slotted (this : LdapPool ι) : Prop where
  located : ∀ t, (this.clients t).pc.HasSlot (this.clients t).slot
  entries : ∀ t l, this.fFreeList l = some t ↔ (this.clients t).slot = some l
  locks : ∀ t l, this.mutexes l = some (some t) ↔
    (this.clients t).slot = some l ∧ (this.clients t).pc.locked = true

structure Inv (this : LdapPool ι) [Fintype ι] : Prop
    extends Slotted this where
  tokens : this.count + this.held = this.initial

section

variable [Fintype ι] {this : LdapPool ι}

theorem Inv.sound (inv : Inv this) : Sound this := by
  refine ⟨inv.tokens, ?_, ?_, ?_⟩
  · intro t completed
    have located := inv.located t
    generalize (this.clients t).slot = slot at located ⊢
    cases pc : (this.clients t).pc <;>
      simp_all [LdapPc.HasSlot, LdapPc.completed]
  · intro t t' l has has'
    have entry := (inv.entries t l).mpr has
    rw [(inv.entries t' l).mpr has'] at entry
    exact (Option.some.inj entry).symm
  · intro t l has
    exact ⟨(inv.entries t l).mpr has, fun locked => (inv.locks t l).mpr ⟨has, locked⟩⟩

omit [Fintype ι] in
theorem findEntry_some [DecidableEq ι] {maxConnections l : Nat} {entry : Option ι}
    (found : this.findEntry maxConnections entry = some l) :
    this.fFreeList l = entry := by
  simpa using List.find?_some found

omit [Fintype ι] in
theorem findEntry_none [DecidableEq ι] {maxConnections : Nat} {entry : Option ι} :
    this.findEntry maxConnections entry = none ↔
      ¬ ∃ l < maxConnections, this.fFreeList l = entry := by
  simp [findEntry]

end

section

variable [DecidableEq ι] {this after : LdapPool ι} {me : ι}

theorem held_update [Fintype ι] (this : LdapPool ι) (me : ι) (client : LdapClient) :
    (this.setClient me client).held + (this.clients me).pc.hasToken.toNat =
      this.held + client.pc.hasToken.toNat :=
  Counts.sum_update (fun client : LdapClient => client.pc.hasToken.toNat)
    this.clients me client

variable {client : LdapClient}

theorem Inv.tokens_update [Fintype ι] (inv : Inv this)
    (clients : after.clients = update this.clients me client)
    (counts : after.count + client.pc.hasToken.toNat + this.initial =
      this.count + (this.clients me).pc.hasToken.toNat + after.initial) :
    after.count + after.held = after.initial := by
  have moved := held_update this me client
  have same : after.held = (this.setClient me client).held := by
    rw [held, clients]
    rfl
  have tokens := inv.tokens
  omega

omit [DecidableEq ι] in
theorem Slotted.slot (inv : Slotted this) {pc : LdapPc} (at_ : (this.clients me).pc = pc) :
    pc.HasSlot (this.clients me).slot := by
  rw [← at_]
  exact inv.located me

theorem Slotted.update (inv : Slotted this) (client : LdapClient)
    (clients : after.clients = update this.clients me client)
    (located : client.pc.HasSlot client.slot)
    (entries : ∀ t l, after.fFreeList l = some t ↔
      if t = me then client.slot = some l else this.fFreeList l = some t)
    (locks : ∀ t l, after.mutexes l = some (some t) ↔
      if t = me then client.slot = some l ∧ client.pc.locked = true
      else this.mutexes l = some (some t)) : Slotted after := by
  constructor
  · intro t
    rw [clients]
    by_cases same : t = me
    · rw [same, update_self]
      exact located
    · rw [update_of_ne same]
      exact inv.located t
  · intro t l
    rw [entries, clients]
    by_cases same : t = me
    · rw [if_pos same, same, update_self]
    · rw [if_neg same, update_of_ne same]
      exact inv.entries t l
  · intro t l
    rw [locks, clients]
    by_cases same : t = me
    · rw [if_pos same, same, update_self]
    · rw [if_neg same, update_of_ne same]
      exact inv.locks t l

theorem Slotted.setClient (inv : Slotted this) (slot : client.slot = (this.clients me).slot)
    (locked : client.pc.locked = (this.clients me).pc.locked)
    (located : client.pc.HasSlot (this.clients me).slot) :
    Slotted (this.setClient me client) := by
  apply inv.update client rfl
  · rw [slot]
    exact located
  · intro t l
    split
    · next same =>
        subst same
        rw [slot]
        exact inv.entries t l
    · exact Iff.rfl
  · intro t l
    split
    · next same =>
        subst same
        rw [slot, locked]
        exact inv.locks t l
    · exact Iff.rfl

theorem Inv.setClient [Fintype ι] (inv : Inv this) (slot : client.slot = (this.clients me).slot)
    (token : client.pc.hasToken = (this.clients me).pc.hasToken)
    (locked : client.pc.locked = (this.clients me).pc.locked)
    (located : client.pc.HasSlot (this.clients me).slot) :
    Inv (this.setClient me client) := by
  refine ⟨inv.toSlotted.setClient slot locked located, ?_⟩
  have moved := held_update this me client
  rw [token, Nat.add_right_cancel_iff] at moved
  rw [moved]
  exact inv.tokens

/-! ### The sections that change slots or tokens -/

variable {maxConnections : Nat} {rebindTimeout : Int}

theorem newSema_eq (small : maxConnections % 2 ^ 32 < 2 ^ 31) :
    newSema maxConnections = (maxConnections % 2 ^ 32, maxConnections % 2 ^ 32) := by
  rw [newSema, SystemAPI.createSema, if_pos small]
  rfl

theorem newSema_lt (large : ¬ maxConnections % 2 ^ 32 < 2 ^ 31) :
    (newSema maxConnections).1 = 0 ∧ 0 < (newSema maxConnections).2 := by
  rw [newSema, SystemAPI.createSema, if_neg large]
  exact ⟨rfl, by omega⟩

theorem lookupSema_inv [Fintype ι] (inv : Inv this)
    (at_ : (this.clients me).pc = .lookupSema maxConnections rebindTimeout)
    (small : this.sema = none → maxConnections % 2 ^ 32 < 2 ^ 31) :
    Inv ((this.setSema (if this.sema = none then
      some (newSema maxConnections) else this.sema)).moveTo me
      (.acquire maxConnections rebindTimeout)) := by
  have kept : Inv (this.setSema (if this.sema = none then
      some (newSema maxConnections) else this.sema)) := by
    refine ⟨⟨inv.located, inv.entries, inv.locks⟩, ?_⟩
    have tokens := inv.tokens
    split
    · next none_ =>
        simp only [count, initial, none_, map_none, getD_none, Nat.zero_add] at tokens
        rw [newSema_eq (small none_)]
        exact (congrArg (maxConnections % 2 ^ 32 + ·) tokens :)
    · exact tokens
  exact kept.setClient rfl (by simp [setSema, at_, LdapPc.hasToken])
    (by simp [setSema, at_, LdapPc.locked, LdapPc.completed]) (inv.slot at_ :)

theorem acquire_inv [Fintype ι] {count initial : Nat} (inv : Inv this)
    (at_ : (this.clients me).pc = .acquire maxConnections rebindTimeout)
    (free : this.sema = some (count + 1, initial)) :
    Inv ((this.setSema (some (count, initial))).moveTo me
      (.getUnusedFreeListEntry maxConnections rebindTimeout)) := by
  have kept : Slotted (this.setSema (some (count, initial))) :=
    ⟨inv.located, inv.entries, inv.locks⟩
  constructor
  · exact kept.setClient rfl
      (by simp [setSema, at_, LdapPc.locked, LdapPc.completed]) (inv.slot at_ :)
  · apply inv.tokens_update rfl
    simp only [at_, LdapPc.hasToken, LdapPool.count, LdapPool.initial, free,
      moveTo, LdapPool.setClient, setSema]
    simp

variable {l : Nat}

theorem getUnusedFreeListEntry_inv [Fintype ι] (inv : Inv this)
    (at_ : (this.clients me).pc =
      .getUnusedFreeListEntry maxConnections rebindTimeout) (free : this.fFreeList l = none) :
    Inv ((this.setFreeList l (some me)).moveWith me (some l)
      (.lockSlot l rebindTimeout)) := by
  have none_ : (this.clients me).slot = none := inv.slot at_
  constructor
  · apply inv.toSlotted.update ⟨.lockSlot l rebindTimeout, some l,
      (this.clients me).returned⟩ rfl rfl
    · intro t l'
      simp only [moveWith, LdapPool.setClient, setFreeList]
      by_cases here : l' = l
      · subst here
        rw [update_self, free]
        split
        · next same => simp [same]
        · next other => simp [Ne.symm other]
      · rw [update_of_ne here]
        split
        · next same =>
            rw [same, inv.entries me l', none_]
            simp [Ne.symm here]
        · exact Iff.rfl
    · intro t l'
      split
      · next same =>
          rw [same]
          apply iff_of_false
          · intro locked
            rw [((inv.locks me l').mp locked).1] at none_
            cases none_
          · exact fun locked => nomatch locked.2
      · exact Iff.rfl
  · apply inv.tokens_update rfl
    rw [at_]
    rfl

theorem Slotted.tryLock (inv : Slotted this)
    (at_ : (this.clients me).pc = .lockSlot l rebindTimeout) :
    this.tryLock me l = some (this.setMutex l (some me)) := by
  have has : (this.clients me).slot = some l := inv.slot at_
  rw [LdapPool.tryLock]
  split
  · next locker locked =>
      rcases (inv.locks locker l).mp locked with ⟨slot, isLocked⟩
      have entry := (inv.entries locker l).mpr slot
      rw [(inv.entries me l).mpr has] at entry
      cases entry
      rw [at_] at isLocked
      cases isLocked
  · rfl

theorem lockSlot_inv [Fintype ι] (inv : Inv this)
    (at_ : (this.clients me).pc = .lockSlot l rebindTimeout) :
    Inv ((this.setMutex l (some me)).moveTo me
      (.getHandleInfo l rebindTimeout)) := by
  have has : (this.clients me).slot = some l := inv.slot at_
  constructor
  · apply inv.toSlotted.update ⟨.getHandleInfo l rebindTimeout,
      (this.clients me).slot, (this.clients me).returned⟩ rfl has
    · intro t l'
      split
      · next same =>
          rw [same]
          exact inv.entries me l'
      · exact Iff.rfl
    · intro t l'
      simp only [moveTo, LdapPool.setClient, setMutex, has]
      by_cases here : l' = l
      · subst here
        rw [update_self]
        split
        · next same => simp [same, LdapPc.locked]
        · next other =>
            apply iff_of_false
            · intro locked
              cases locked
              exact other rfl
            · intro locked
              have slot := ((inv.locks t l').mp locked).1
              have entry := (inv.entries t l').mpr slot
              rw [(inv.entries me l').mpr has] at entry
              cases entry
              exact other rfl
      · rw [update_of_ne here]
        split
        · next same =>
            rw [same, inv.locks me l', has]
            simp [Ne.symm here]
        · exact Iff.rfl
  · apply inv.tokens_update rfl
    rw [at_]
    rfl

theorem unlockSlot_inv [Fintype ι] (inv : Inv this) (at_ : (this.clients me).pc = .unlockSlot l) :
    Inv ((this.unlock me l).moveTo me (.clearFreeListEntry l)) := by
  have has : (this.clients me).slot = some l := inv.slot at_
  have locked : this.mutexes l = some (some me) :=
    (inv.locks me l).mpr ⟨has, by rw [at_]; rfl⟩
  rw [unlock, if_pos locked]
  constructor
  · apply inv.toSlotted.update ⟨.clearFreeListEntry l,
      (this.clients me).slot, (this.clients me).returned⟩ rfl has
    · intro t l'
      split
      · next same =>
          rw [same]
          exact inv.entries me l'
      · exact Iff.rfl
    · intro t l'
      simp only [moveTo, LdapPool.setClient, setMutex, has, LdapPc.locked]
      by_cases here : l' = l
      · subst here
        rw [update_self, locked]
        split
        · simp
        · next other => simp [Ne.symm other]
      · rw [update_of_ne here]
        split
        · next same =>
            rw [same, inv.locks me l', has]
            simp [Ne.symm here]
        · exact Iff.rfl
  · apply inv.tokens_update rfl
    rw [at_]
    rfl

theorem clearFreeListEntry_inv [Fintype ι] (inv : Inv this)
    (at_ : (this.clients me).pc = .clearFreeListEntry l) :
    Inv (((this.setFreeList l none).setSema
      (this.sema.map fun sema => (sema.1 + 1, sema.2))).moveWith me none
        .idle) := by
  have has : (this.clients me).slot = some l := inv.slot at_
  constructor
  · apply inv.toSlotted.update ⟨.idle, none, (this.clients me).returned⟩ rfl rfl
    · intro t l'
      simp only [moveWith, LdapPool.setClient, setSema, setFreeList]
      by_cases here : l' = l
      · subst here
        rw [update_self, (inv.entries me l').mpr has]
        split
        · simp
        · next other => simp [Ne.symm other]
      · rw [update_of_ne here]
        split
        · next same =>
            rw [same, inv.entries me l', has]
            simp [Ne.symm here]
        · exact Iff.rfl
    · intro t l'
      split
      · next same =>
          rw [same]
          apply iff_of_false
          · intro locked
            have isLocked := ((inv.locks me l').mp locked).2
            rw [at_] at isLocked
            cases isLocked
          · exact fun locked => nomatch locked.1
      · exact Iff.rfl
  · apply inv.tokens_update rfl
    cases sema : this.sema with
    | none =>
      -- without a semaphore nobody has a token
      have tokens := inv.tokens
      have mine := Counts.single_le_sum
        (fun client : LdapClient => client.pc.hasToken.toNat) this.clients me
      simp only [count, initial, sema, map_none, getD_none, Nat.zero_add] at tokens
      rw [held] at tokens
      rw [tokens, at_] at mine
      cases mine
    | some counts =>
      simp only [at_, LdapPc.hasToken, LdapPool.count, LdapPool.initial,
        moveWith, LdapPool.setClient, setSema, sema]
      simp

theorem Inv.stays [Fintype ι] (inv : Inv this) (client : LdapClient)
    (has : (this.clients me).pc.locked = true) (slot : client.slot = (this.clients me).slot)
    (locked : client.pc.locked = true)
    (located : (this.clients me).slot.isSome → client.pc.HasSlot (this.clients me).slot) :
    Inv (this.setClient me client) := by
  have tokenOf : ∀ pc : LdapPc, pc.locked = true → pc.hasToken = true := by
    intro pc locked
    cases pc <;> first | rfl | cases locked
  have someSlot : (this.clients me).slot.isSome := by
    have mine := inv.located me
    generalize (this.clients me).slot = slot at mine ⊢
    generalize (this.clients me).pc = pc at has mine
    cases pc <;> first
      | exact mine
      | cases mine
        rfl
      | cases has
  exact inv.setClient slot ((tokenOf _ locked).trans (tokenOf _ has).symm)
    (locked.trans has.symm) (located someSlot)

/-- What one step of a thread keeps of its slot. -/
theorem go_inv [Fintype ι] {now : Int} (inv : Inv this)
    (meets : Meets this me (.go now)) (steps : this.go me now = some after) :
    Inv after := by
  cases at_ : (this.clients me).pc with
  | idle =>
    simp only [go, at_] at steps
    cases steps
  | connected =>
    simp only [go, at_] at steps
    cases steps
  | lookupSema maxConnections rebindTimeout =>
    simp only [go, at_] at steps
    cases steps
    simp only [Meets, at_] at meets
    exact lookupSema_inv inv at_ meets
  | acquire maxConnections rebindTimeout =>
    simp only [go, at_] at steps
    split at steps
    · next free =>
        cases steps
        exact acquire_inv inv at_ free
    · cases steps
  | getUnusedFreeListEntry maxConnections rebindTimeout =>
    simp only [go, at_] at steps
    split at steps
    · next l found =>
        cases steps
        exact getUnusedFreeListEntry_inv inv at_ (findEntry_some found)
    · next none_ =>
        simp only [Meets, at_] at meets
        exact absurd meets (findEntry_none.mp none_)
  | lockSlot l rebindTimeout =>
    simp only [go, at_, inv.toSlotted.tryLock at_] at steps
    cases steps
    exact lockSlot_inv inv at_
  | getHandleInfo slotIndex rebindTimeout =>
    simp only [go, at_] at steps
    cases steps
    exact inv.stays _ (by rw [at_]; rfl) rfl rfl id
  | reGetLockedSlot maxConnections use =>
    have has : (this.clients me).pc.locked = true := by rw [at_]; rfl
    simp only [go, at_] at steps
    split at steps
    · cases steps
      exact inv.stays _ has rfl rfl id
    · cases steps
      exact inv.stays _ has rfl rfl id
    · cases steps
      exact inv.stays _ has rfl rfl id
  | reGetHandleInfo slotIndex use =>
    have has : (this.clients me).pc.locked = true := by rw [at_]; rfl
    cases use with
    | getLdapConnection rebindTimeout =>
      simp only [go, at_] at steps
      cases steps
      exact inv.stays _ has rfl rfl id
    | setLdapConnection maxConnections handle =>
      simp only [go, at_] at steps
      cases steps
      exact inv.stays _ has rfl rfl id
  | setLockedSlot maxConnections handleInfo =>
    have has : (this.clients me).pc.locked = true := by rw [at_]; rfl
    simp only [go, at_] at steps
    split at steps
    · cases steps
      exact inv.stays _ has rfl rfl id
    · cases steps
      exact inv.stays _ has rfl rfl id
  | setHandleInfo slotIndex handleInfo =>
    have has : (this.clients me).pc.locked = true := by rw [at_]; rfl
    simp only [go, at_] at steps
    cases steps
    have stored : Inv (this.storeHandleInfo slotIndex handleInfo) :=
      ⟨⟨inv.located, inv.entries, inv.locks⟩, inv.tokens⟩
    exact stored.stays _ has rfl rfl id
  | releaseHandleInfo maxConnections =>
    simp only [go, at_] at steps
    split at steps
    · next l found =>
        cases steps
        exact inv.setClient rfl (by rw [at_]; rfl) (by rw [at_]; rfl)
          ((inv.entries me l).mp (findEntry_some found))
    · next none_ =>
        simp only [Meets, at_] at meets
        exact absurd meets (findEntry_none.mp none_)
  | unlockSlot slotIndex =>
    simp only [go, at_] at steps
    cases steps
    exact unlockSlot_inv inv at_
  | clearFreeListEntry slotIndex =>
    simp only [go, at_] at steps
    cases steps
    exact clearFreeListEntry_inv inv at_

theorem step_inv [Fintype ι] {limit : Nat → Nat} {move : LdapMove} (inv : Inv this)
    (meets : Meets this me move) (steps : this.step limit me move = some after) : Inv after := by
  cases move with
  | getLdapConnection maxConnections rebindTimeout =>
    rcases ite_none_right_eq_some.mp steps with ⟨at_, ⟨⟩⟩
    exact inv.setClient rfl (by rw [at_]; rfl) (by rw [at_]; rfl) (inv.slot at_ :)
  | regetLdapConnection maxConnections rebindTimeout =>
    rcases ite_none_right_eq_some.mp steps with ⟨at_, ⟨⟩⟩
    exact inv.stays _ (by rw [at_]; rfl) rfl rfl id
  | setLdapConnection maxConnections handle =>
    rcases ite_none_right_eq_some.mp steps with ⟨at_, ⟨⟩⟩
    exact inv.stays _ (by rw [at_]; rfl) rfl rfl id
  | releaseHandleInfo maxConnections =>
    rcases ite_none_right_eq_some.mp steps with ⟨at_, ⟨⟩⟩
    exact inv.stays _ (by rw [at_]; rfl) rfl rfl id
  | acquireFails => exact meets.elim
  | go now => exact go_inv inv meets steps

theorem step_breaks [Fintype ι] {limit : Nat → Nat} {move : LdapMove}
    (inv : Inv this) (misses : ¬ Meets this me move)
    (steps : this.step limit me move = some after) : ¬ Sound after := by
  intro sound
  have tokens := inv.tokens
  have tokens' := sound.tokens
  cases move with
  | acquireFails =>
    simp only [step] at steps
    split at steps
    · next maxConnections rebindTimeout at_ =>
        cases steps
        -- the thread is past the semaphore, the count is what it was
        have moved := held_update this me
          ⟨.getUnusedFreeListEntry maxConnections rebindTimeout, (this.clients me).slot,
            (this.clients me).returned⟩
        simp only [at_, LdapPc.hasToken, Bool.toNat_true, Bool.toNat_false] at moved
        change this.count + held (this.setClient me _) = this.initial at tokens'
        omega
    · cases steps
  | go now =>
    cases at_ : (this.clients me).pc with
    | lookupSema maxConnections rebindTimeout =>
      simp only [Meets, at_, Classical.not_imp] at misses
      rcases misses with ⟨none_, large⟩
      rcases newSema_lt large with ⟨noCount, some_⟩
      simp only [step, go, at_, none_, if_true] at steps
      cases steps
      have moved := held_update this me
        ⟨.acquire maxConnections rebindTimeout, (this.clients me).slot, (this.clients me).returned⟩
      simp only [at_, LdapPc.hasToken, Bool.toNat_false, Nat.add_zero] at moved
      change (newSema maxConnections).1 + held (this.setClient me
        ⟨.acquire maxConnections rebindTimeout, (this.clients me).slot,
          (this.clients me).returned⟩) = (newSema maxConnections).2 at tokens'
      simp only [count, initial, none_, map_none, getD_none, Nat.zero_add] at tokens
      omega
    | getUnusedFreeListEntry maxConnections rebindTimeout =>
      simp only [Meets, at_] at misses
      simp only [step, go, at_, findEntry_none.mpr misses] at steps
      cases steps
      have slot := sound.slots me (by simp [return_, setClient, LdapPc.completed])
      simp [return_, setClient] at slot
    | releaseHandleInfo maxConnections =>
      simp only [Meets, at_] at misses
      simp only [step, go, at_, findEntry_none.mpr misses] at steps
      cases steps
      have moved := held_update this me
        ⟨.idle, none, (this.clients me).returned⟩
      simp only [at_, LdapPc.hasToken, Bool.toNat_true, Bool.toNat_false] at moved
      change this.count + held (this.setClient me _) = this.initial
        at tokens'
      omega
    | _ => simp only [Meets, at_, not_true_eq_false] at misses
  | _ => exact misses trivial

end

theorem create_inv [Fintype ι] : Inv (create : LdapPool ι) := by
  refine ⟨⟨fun _ => rfl, ?_, ?_⟩, ?_⟩
  · intro t l
    exact iff_of_false nofun nofun
  · intro t l
    exact iff_of_false nofun nofun
  · simp [count, held, initial, create, LdapPc.hasToken]

end LdapPool

namespace LDAPConnectionManager

variable {ι : Type} [Fintype ι] [DecidableEq ι]

def Sound (this : LDAPConnectionManager ι) : Prop := ∀ poolId, (this.pools poolId).Sound

/-- The thread gets a token where it waits for one, and sees the slot that it
looks for below its limit. -/
def Meets (this : LDAPConnectionManager ι) (action : LdapAction ι) : Prop :=
  (this.pools action.poolId).Meets action.me action.move

def Inv (this : LDAPConnectionManager ι) : Prop := ∀ poolId, (this.pools poolId).Inv

omit [Fintype ι] in
theorem step_cases {this after : LDAPConnectionManager ι}
    {action : LdapAction ι} (steps : this.step action = some after) :
    ∃ pool, (this.pools action.poolId).step this.limit action.me action.move = some pool ∧
      after.pools = update this.pools action.poolId pool := by
  rw [step] at steps
  rcases bind_eq_some_iff.mp steps with ⟨mutex, _, rest⟩
  rcases bind_eq_some_iff.mp rest with ⟨pool, poolSteps, result⟩
  cases result
  exact ⟨pool, poolSteps, rfl⟩

theorem step_inv (this : LDAPConnectionManager ι) (action : LdapAction ι)
    (after : LDAPConnectionManager ι) (inv : Inv this)
    (meets : Meets this action) (steps : this.step action = some after) :
    Inv after := by
  rcases step_cases steps with ⟨pool, poolSteps, pools⟩
  intro poolId
  rw [pools]
  by_cases same : poolId = action.poolId
  · subst same
    rw [update_self]
    exact LdapPool.step_inv (inv _) meets poolSteps
  · rw [update_of_ne same]
    exact inv poolId

theorem step_not_sound (this : LDAPConnectionManager ι) (action : LdapAction ι)
    (after : LDAPConnectionManager ι) (inv : Inv this) (misses : ¬ Meets this action)
    (steps : this.step action = some after) : ¬ Sound after := by
  rcases step_cases steps with ⟨pool, poolSteps, pools⟩
  intro sound
  apply LdapPool.step_breaks (inv action.poolId) misses poolSteps
  have mine := sound action.poolId
  rw [pools, update_self] at mine
  exact mine

/-- In every run, tokens and slots agree in all states exactly if no wait for a
semaphore fails, each semaphore can count to its limit, and each thread that
looks for a free slot, or for its own to release it, has one below the limit
that it brings along. -/
theorem create_always_sound_iff (fDefMaxConnections : Nat)
    {last : LDAPConnectionManager ι} {actions : List (LdapAction ι)}
    (runs : run step (create fDefMaxConnections) actions = some last) :
    Always step Sound (create fDefMaxConnections) actions ↔
      Along step Meets (create fDefMaxConnections) actions :=
  always_iff_along step_inv (fun _ inv poolId => (inv poolId).sound)
    step_not_sound (fun _ => LdapPool.create_inv) runs

local instance : NeZero 2 := ⟨by decide⟩

/-- The pool is made for three connections; the thread that takes its second
token brings along the limit 1. -/
private def secondToken : List (LdapAction (Fin 2)) :=
  [⟨[112], 0, .getLdapConnection 3 0⟩, ⟨[112], 0, .go 0⟩, ⟨[112], 0, .go 0⟩,
    ⟨[112], 0, .go 0⟩, ⟨[112], 0, .go 0⟩, ⟨[112], 0, .go 0⟩,
    ⟨[112], 1, .getLdapConnection 1 0⟩, ⟨[112], 1, .go 0⟩,
    ⟨[112], 1, .go 0⟩, ⟨[112], 1, .go 0⟩]

theorem not_sound_secondToken :
    ∃ last, run step (create 2) secondToken = some last ∧ ¬ Sound last := by
  refine ⟨_, rfl, ?_⟩
  intro sound
  have slot := (sound [112]).slots 1 (by decide)
  revert slot
  decide

/-- Two threads share the only connection, one after the other. -/
private def oneAfterTheOther : List (LdapAction (Fin 2)) :=
  [⟨[112], 0, .getLdapConnection 1 0⟩, ⟨[112], 1, .getLdapConnection 1 0⟩,
    ⟨[112], 0, .go 0⟩, ⟨[112], 1, .go 0⟩, ⟨[112], 0, .go 0⟩, ⟨[112], 0, .go 0⟩,
    ⟨[112], 0, .go 0⟩, ⟨[112], 0, .go 0⟩, ⟨[112], 0, .releaseHandleInfo 1⟩,
    ⟨[112], 0, .go 0⟩, ⟨[112], 0, .go 0⟩, ⟨[112], 0, .go 0⟩,
    ⟨[112], 1, .go 0⟩, ⟨[112], 1, .go 0⟩]

theorem along_oneAfterTheOther : Along step Meets (create 2) oneAfterTheOther := by
  refine .cons trivial rfl (.cons trivial rfl ?_)
  refine .cons (fun _ => by decide) rfl (.cons nofun rfl ?_)
  refine .cons trivial rfl (.cons ⟨0, by decide, rfl⟩ rfl ?_)
  refine .cons trivial rfl (.cons trivial rfl (.cons trivial rfl ?_))
  refine .cons ⟨0, by decide, rfl⟩ rfl (.cons trivial rfl (.cons trivial rfl ?_))
  exact .cons trivial rfl (.cons ⟨0, by decide, rfl⟩ rfl trivial)

theorem create_always_sound_iff_secondToken :
    (∃ last, run step (create 2) secondToken = some last ∧
      ¬ Along step Meets (create 2) secondToken) ∧
    Always step Sound (create 2) oneAfterTheOther := by
  constructor
  · rcases not_sound_secondToken with ⟨last, runs, not⟩
    refine ⟨last, runs, ?_⟩
    rw [← create_always_sound_iff 2 runs]
    exact fun always => not (always.last runs)
  · obtain ⟨last, runs⟩ : ∃ last, run step (create 2) oneAfterTheOther = some last := ⟨_, rfl⟩
    exact (create_always_sound_iff 2 runs).mpr along_oneAfterTheOther

theorem not_create_always_sound :
    ¬ ∀ (fDefMaxConnections : Nat) (actions : List (LdapAction (Fin 2)))
      (last : LDAPConnectionManager (Fin 2)),
      run step (create fDefMaxConnections) actions = some last →
      Sound last := by
  intro sound
  rcases not_sound_secondToken with ⟨last, runs, not⟩
  exact not (sound 2 secondToken last runs)

end LDAPConnectionManager

end Coast
